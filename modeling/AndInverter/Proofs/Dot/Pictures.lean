import AndInverter.Dot.Picture
import AndInverter.Proofs.Aig.Checking
import AndInverter.Proofs.Aig.Isomorphism
import AndInverter.Proofs.Aig.Sessions
import AndInverter.Proofs.DepthView.CriticalPaths
import AndInverter.Proofs.Traversal.Exploration

/-!
# Drawings show the graph

A drawing is filled node by node while a depth-first search yields the nodes.
The search yields what lies below the outputs and nothing twice, and this passes
on to the declarations and the arrows.
-/

namespace AndInverter

open Network Dot

namespace Dot

theorem ListsOnce.of_perm {Item : Type} {IsItem : Item → Prop} {items others : List Item}
    (lists : ListsOnce IsItem items) (permutation : items.Perm others) :
    ListsOnce IsItem others := by
  refine ⟨permutation.nodup_iff.mp lists.nodup, fun item => ?_⟩
  rw [← permutation.mem_iff]
  exact lists.mem_iff item

end Dot

namespace Picture

/-! ### The picture of a list of nodes -/

def declarationOf (legend : Legend) (label : Nat → String) (id : Nat) : Declaration :=
  { id := id, label := label id, critical := legend.isCritical id }

def outputArrow (index : Nat) (output : Edge) : Arrow :=
  { source := output.node, target := .output index
    complement := output.complement, critical := false }

def faninArrow (legend : Legend) (gate : Nat) (edge : Edge) : Arrow :=
  { source := edge.node, target := .gate gate
    complement := edge.complement, critical := legend.isCriticalEdge edge.node gate }

def faninArrows (legend : Legend) (node : Node) : List Arrow :=
  node.fanins.map (faninArrow legend node.id)

def idsOf (isKind : Node → Bool) (nodes : List Node) : List Nat :=
  (nodes.filter isKind).map Node.id

def ofNodes (legend : Legend) (outputs : List Edge) (nodes : List Node) : Picture :=
  { constants := idsOf Node.isConstant nodes
    inputs := (idsOf Node.isInput nodes).map (declarationOf legend fun id => s!"i{id}")
    gates := (idsOf Node.isGate nodes).map (declarationOf legend legend.label)
    outputs := List.range outputs.length
    arrows := outputs.mapIdx outputArrow ++ nodes.flatMap (faninArrows legend) }

def ofAig (legend : Legend) (aig : Aig) : Picture :=
  ofNodes legend aig.outputs.toList (Drawing.nodes aig)

/-! ### Lines -/

def drawing (style : DotStyle) (picture : Picture) : Drawing :=
  { constants := picture.constants.map fun id => s!"{id} {style.constant}\n"
    inputs := picture.inputs.map (·.line style)
    gates := picture.gates.map (·.line style)
    outputs := picture.outputs.map fun index => s!"o{index} [label=\"o{index + 1}\"]\n"
    edges := picture.arrows.map (·.line style) }

private theorem toString_text (text : String) : toString text = text :=
  rfl

theorem text_drawing (style : DotStyle) (picture : Picture) :
    (picture.drawing style).text style = picture.text style := by
  have indented (rest : String) : "    " ++ ("subgraph " ++ rest) = "    subgraph " ++ rest := by
    rw [← String.append_assoc, String.append_left_inj]
    decide
  -- Equations of definitions with long strings are slow to derive, so these are unfolded without.
  delta Drawing.text Drawing.sectionText text subgraph drawing
  simp only [toString_text, String.append_assoc, indented]

private theorem line_eq (style : DotStyle) (arrow : Arrow) :
    arrow.line style = s!"{arrow.source} -> {arrow.target.name} {edgeAttributes style
      arrow.complement arrow.critical arrow.target.isOutput}\n" := by
  simp only [Arrow.line, edgeAttributes, toString_text, String.append_assoc]

private theorem outputLine_eq (index : Nat) :
    outputLine index = s!"o{index} [label=\"o{index + 1}\"]\n" := by
  have joined (rest : String) : " [label=\"" ++ ("o" ++ rest) = " [label=\"o" ++ rest := by
    rw [← String.append_assoc, String.append_left_inj]
    decide
  simp only [outputLine, outputName, toString_text, String.append_assoc, joined]

theorem line_outputArrow (style : DotStyle) (index : Nat) (output : Edge) :
    (outputArrow index output).line style = outputEdgeLine style output index := by
  rw [line_eq]
  rfl

theorem line_faninArrow (style : DotStyle) (legend : Legend) (gate : Nat) (edge : Edge) :
    (faninArrow legend gate edge).line style = edgeLine edge (toString gate)
      (edgeAttributes style edge.complement (legend.isCriticalEdge edge.node gate) false) := by
  rw [line_eq]
  rfl

/-- A drawing that is filled node by node has the lines of the picture. -/
theorem foldr_ofNode (style : DotStyle) (legend : Legend) (nodes : List Node) :
    nodes.foldr (fun node rest => (Drawing.ofNode style legend node).append rest)
        { constants := [], inputs := [], gates := [], outputs := [], edges := [] } =
      (ofNodes legend [] nodes).drawing style := by
  induction nodes with
  | nil => rfl
  | cons node nodes induction =>
      rw [List.foldr_cons, induction]
      cases node with
      | constant => rfl
      | input id => rfl
      | gate id fanins =>
          have lines : gateEdgeLines style legend id fanins =
              (faninArrows legend (.gate id fanins)).map (·.line style) := by
            simp only [gateEdgeLines, faninArrows, List.map_map, Node.fanins, Node.id]
            exact List.map_congr_left fun edge _ => (line_faninArrow style legend id edge).symm
          simp only [Drawing.ofNode, Drawing.append, lines, drawing, ofNodes, List.mapIdx_nil,
            List.nil_append, List.flatMap_cons, List.map_append]
          rfl

theorem drawing_ofAig (style : DotStyle) (legend : Legend) (aig : Aig) :
    (ofAig legend aig).drawing style = Drawing.ofAig style legend aig := by
  have arrows (outputs : List Edge) :
      (outputs.mapIdx outputArrow).map (·.line style) =
        outputs.mapIdx fun index output => outputEdgeLine style output index := by
    simp only [List.mapIdx_eq_zipIdx_map, List.map_map, Function.comp_def, line_outputArrow]
  have outputs := funext outputLine_eq
  rw [Drawing.ofAig, foldr_ofNode]
  simp only [Drawing.append, Drawing.ofOutputs, drawing, ofAig, ofNodes, arrows, outputs,
    List.mapIdx_nil, List.nil_append, List.map_append, List.length_nil, List.range_zero,
    List.map_nil, List.append_nil]

/-! ### Nodes below the outputs -/

variable {aig : Aig} {legend : Legend} {notes : Notes}

theorem declared_ofNodes (legend : Legend) (outputs : List Edge) (nodes : List Node) :
    (ofNodes legend outputs nodes).declared =
      idsOf Node.isConstant nodes ++ idsOf Node.isInput nodes ++ idsOf Node.isGate nodes := by
  simp [declared, ofNodes, declarationOf, Function.comp_def]

theorem declared_perm (legend : Legend) (outputs : List Edge) (nodes : List Node) :
    (nodes.map Node.id).Perm (ofNodes legend outputs nodes).declared := by
  rw [declared_ofNodes]
  induction nodes with
  | nil => exact .nil
  | cons node nodes induction =>
      have step := induction.cons node.id
      cases node with
      | constant => exact step
      | input id =>
          have moved : (id :: (idsOf Node.isConstant nodes ++ idsOf Node.isInput nodes)).Perm
              (idsOf Node.isConstant nodes ++ id :: idsOf Node.isInput nodes) :=
            List.perm_middle.symm
          exact step.trans (moved.append_right (idsOf Node.isGate nodes))
      | gate id fanins => exact step.trans List.perm_middle.symm

private theorem map_id_filterMap (placed : aig.Placed) {ids : List Nat}
    (live : ∀ id ∈ ids, aig.isDead id = false) :
    (ids.filterMap aig.node?).map Node.id = ids := by
  induction ids with
  | nil => rfl
  | cons id ids induction =>
      obtain ⟨node, stored⟩ := Aig.isDead_eq_false_iff.mp (live id List.mem_cons_self)
      rw [List.filterMap_cons_some stored, List.map_cons, placed.position id node stored,
        induction fun other member => live other (List.mem_cons_of_mem id member)]

theorem listsOnce_toList (aig : Aig) :
    ListsOnce aig.BelowOutputs ((DepthFirst.fromOutputs aig).toList aig) := by
  have explores := (DepthFirst.enumerates_toList aig (roots aig)).explores
  exact ⟨explores.nodup, explores.mem_iff⟩

theorem map_id_nodes (references : aig.References) (placed : aig.Placed) :
    (Drawing.nodes aig).map Node.id = (DepthFirst.fromOutputs aig).toList aig := by
  apply map_id_filterMap placed
  intro id member
  exact (((listsOnce_toList aig).mem_iff id).mp member).live references

theorem mem_nodes_iff {node : Node} :
    node ∈ Drawing.nodes aig ↔ ∃ id, aig.BelowOutputs id ∧ aig.node? id = some node := by
  simp only [Drawing.nodes, List.mem_filterMap, (listsOnce_toList aig).mem_iff]

theorem listsOnce_declared (references : aig.References) (placed : aig.Placed)
    (legend : Legend) : ListsOnce aig.BelowOutputs (ofAig legend aig).declared := by
  have permutation := declared_perm legend aig.outputs.toList (Drawing.nodes aig)
  rw [map_id_nodes references placed] at permutation
  exact (listsOnce_toList aig).of_perm permutation

private theorem mem_idsOf {isKind : Node → Bool} {id : Nat} (placed : aig.Placed)
    (member : id ∈ idsOf isKind (Drawing.nodes aig)) :
    ∃ node, aig.node? id = some node ∧ isKind node = true := by
  obtain ⟨node, kept, rfl⟩ := List.mem_map.mp member
  obtain ⟨listed, kind⟩ := List.mem_filter.mp kept
  obtain ⟨id, _, stored⟩ := mem_nodes_iff.mp listed
  rw [placed.position id node stored]
  exact ⟨node, stored, kind⟩

/-! ### Arrows -/

private theorem mem_outputArrows {arrow : Arrow} :
    arrow ∈ aig.outputs.toList.mapIdx outputArrow ↔
      ∃ index output, aig.outputs[index]? = some output ∧ outputArrow index output = arrow := by
  rw [List.mem_mapIdx]
  constructor
  · intro listed
    obtain ⟨index, inside, rfl⟩ := listed
    exact ⟨index, _, Array.getElem?_eq_getElem (Array.length_toList ▸ inside), rfl⟩
  · intro present
    obtain ⟨index, output, listed, rfl⟩ := present
    obtain ⟨inside, rfl⟩ := Array.getElem?_eq_some_iff.mp listed
    exact ⟨index, inside, rfl⟩

private theorem mem_faninArrows (placed : aig.Placed) {arrow : Arrow} :
    arrow ∈ (Drawing.nodes aig).flatMap (faninArrows legend) ↔
      ∃ gate fanins edge, aig.BelowOutputs gate ∧ aig.gateFanins? gate = some fanins ∧
        edge ∈ fanins.toList ∧ faninArrow legend gate edge = arrow := by
  simp only [List.mem_flatMap, mem_nodes_iff, faninArrows, List.mem_map]
  constructor
  · intro drawn
    obtain ⟨node, ⟨id, below, stored⟩, edge, member, rfl⟩ := drawn
    cases node with
    | constant => cases member
    | input name => cases member
    | gate name fanins =>
        cases placed.position id _ stored
        exact ⟨_, fanins, edge, below, Aig.gateFanins?_eq_some_iff.mpr ⟨_, stored⟩, member, rfl⟩
  · intro present
    obtain ⟨gate, fanins, edge, below, stored, member, rfl⟩ := present
    obtain ⟨name, stored⟩ := Aig.gateFanins?_eq_some_iff.mp stored
    cases placed.position gate _ stored
    exact ⟨_, ⟨_, below, stored⟩, edge, member, rfl⟩

private theorem nodup_outputArrows (outputs : List Edge) : (outputs.mapIdx outputArrow).Nodup := by
  rw [List.Nodup, List.pairwise_iff_getElem]
  intro first second _ _ earlier same
  rw [List.getElem_mapIdx, List.getElem_mapIdx] at same
  exact earlier.ne (Target.output.inj (congrArg Arrow.target same))

private theorem nodup_faninArrows (references : aig.References) (placed : aig.Placed) :
    ((Drawing.nodes aig).flatMap (faninArrows legend)).Nodup := by
  rw [List.nodup_flatMap]
  constructor
  · intro node listed
    obtain ⟨id, _, stored⟩ := mem_nodes_iff.mp listed
    cases node with
    | constant => exact .nil
    | input name => exact .nil
    | gate name fanins =>
        have gate := Aig.gateFanins?_eq_some_iff.mpr ⟨name, stored⟩
        obtain ⟨_, different, _⟩ := references.normal id fanins gate
        have arrows : faninArrow legend name fanins.first ≠ faninArrow legend name fanins.second :=
          fun same => different (congrArg Arrow.source same)
        exact List.nodup_cons.mpr ⟨fun member => arrows (List.mem_singleton.mp member),
          List.nodup_singleton _⟩
  · -- Arrows of different nodes point to different gates.
    have nodup := (listsOnce_toList aig).nodup
    rw [← map_id_nodes references placed, List.Nodup, List.pairwise_map] at nodup
    refine nodup.imp fun {first second} different => ?_
    intro arrow fromFirst fromSecond
    obtain ⟨_, _, rfl⟩ := List.mem_map.mp fromFirst
    obtain ⟨_, _, same⟩ := List.mem_map.mp fromSecond
    exact different (Target.gate.inj (congrArg Arrow.target same)).symm

/-- A legend tells what a picture is to tell. -/
structure Follows (legend : Legend) (notes : Notes) : Prop where
  label : legend.label = notes.label
  critical : ∀ id, legend.isCritical id = true ↔ notes.Critical id
  criticalEdge : ∀ source target,
    legend.isCriticalEdge source target = true ↔ notes.CriticalEdge source target

theorem listsOnce_arrows (references : aig.References) (placed : aig.Placed)
    (follows : Follows legend notes) :
    ListsOnce (IsArrow aig notes) (ofAig legend aig).arrows := by
  constructor
  · apply List.nodup_append.mpr
    refine ⟨nodup_outputArrows _, nodup_faninArrows references placed, ?_⟩
    intro first toOutput second toGate equal
    obtain ⟨_, _, _, rfl⟩ := mem_outputArrows.mp toOutput
    obtain ⟨_, _, _, _, _, _, rfl⟩ := (mem_faninArrows placed).mp toGate
    cases congrArg Arrow.target equal
  · intro arrow
    rw [ofAig, ofNodes, List.mem_append, mem_outputArrows, mem_faninArrows placed]
    constructor
    · intro drawn
      rcases drawn with
        ⟨index, output, listed, rfl⟩ | ⟨gate, fanins, edge, below, stored, member, rfl⟩
      · exact .output listed
      · exact .fanin below stored member (follows.criticalEdge edge.node gate)
    · intro isArrow
      cases isArrow with
      | output listed => exact .inl ⟨_, _, listed, rfl⟩
      | @fanin gate fanins edge critical below stored member agrees =>
          have same : critical = legend.isCriticalEdge edge.node gate :=
            Bool.eq_iff_iff.mpr (agrees.trans (follows.criticalEdge edge.node gate).symm)
          exact .inr ⟨gate, fanins, edge, below, stored, member, same ▸ rfl⟩

/-! ### The picture of a graph -/

theorem shows_of_follows (references : aig.References) (ports : aig.Ports)
    (follows : Follows legend notes) : (ofAig legend aig).Shows aig notes := by
  have placed := ports.toPlaced
  constructor
  · exact listsOnce_declared references placed legend
  · intro id member
    obtain ⟨node, stored, kind⟩ := mem_idsOf placed member
    cases node with
    | constant => exact (placed.position id .constant stored).symm
    | input name => cases kind
    | gate name fanins => cases kind
  · intro input member
    obtain ⟨id, listed, rfl⟩ := List.mem_map.mp member
    obtain ⟨node, stored, kind⟩ := mem_idsOf placed listed
    refine ⟨?_, rfl, follows.critical id⟩
    cases node with
    | constant => cases kind
    | input name => exact ports.registered id name stored
    | gate name fanins => cases kind
  · intro gate member
    obtain ⟨id, listed, rfl⟩ := List.mem_map.mp member
    obtain ⟨node, stored, kind⟩ := mem_idsOf placed listed
    refine ⟨?_, congrFun follows.label id, follows.critical id⟩
    cases node with
    | constant => cases kind
    | input name => cases kind
    | gate name fanins =>
        have isGate := Aig.gateFanins?_eq_some_iff.mpr ⟨name, stored⟩
        exact Aig.isGate_iff.mpr ⟨fanins, isGate⟩
  · exact ⟨List.nodup_range, fun index => List.mem_range⟩
  · exact listsOnce_arrows references placed follows

theorem exists_shows (reachable : aig.Reachable) (follows : Follows legend notes)
    (style : DotStyle) :
    ∃ picture : Picture, (Drawing.ofAig style legend aig).text style = picture.text style ∧
      picture.Shows aig notes := by
  have references := reachable.bookkeeping.toReferences
  refine ⟨ofAig legend aig, ?_, shows_of_follows references reachable.ports follows⟩
  rw [← drawing_ofAig, text_drawing]

theorem follows_plain : Follows .plain .plain :=
  { label := rfl
    critical := fun _ => iff_of_false Bool.false_ne_true id
    criticalEdge := fun _ _ => iff_of_false Bool.false_ne_true id }

theorem follows_ofView {view : DepthView Aig} (upToDate : view.UpToDate) :
    Follows (.ofView view) (.ofDepth view.network view.depth view.level) := by
  refine { label := rfl, critical := upToDate.critical, criticalEdge := fun source target => ?_ }
  simp only [Legend.ofView, Notes.ofDepth, Bool.and_eq_true, beq_iff_eq, upToDate.critical,
    and_assoc]

end Picture

open Picture

/-- The text of a graph has a declaration for each node below the outputs and
an arrow for each output and each fanin, and no others.  The text of a view that
was just brought up to date has the levels and the critical paths too. -/
theorem Aig.dot_shows {aig : Aig} (reachable : aig.Reachable) (style : DotStyle) :
    (∃ picture : Picture, aig.dot style = picture.text style ∧ picture.Shows aig .plain) ∧
    (aig.Acyclic → ∃ fresh, DepthView.ofNetwork aig = .ok fresh ∧
      (∀ stale : DepthView Aig, stale.network = aig → stale.refresh = .ok fresh) ∧
      fresh.network = aig ∧ fresh.UpToDate ∧
      ∃ picture : Picture, fresh.dot style = picture.text style ∧
        picture.Shows aig (.ofDepth aig fresh.depth fresh.level)) := by
  refine ⟨exists_shows reachable follows_plain style, fun acyclic => ?_⟩
  have bounded := reachable.bookkeeping.toReferences.bounded
  obtain ⟨fresh, seen⟩ := DepthView.exists_ofNetwork_of_bounded bounded acyclic
  have upToDate := DepthView.upToDate_of_ofNetwork seen
  have same := Rewriting.network_of_ofNetwork seen
  have follows := follows_ofView upToDate
  rw [same] at follows
  refine ⟨fresh, seen, ?_, same, upToDate, ?_⟩
  · intro stale wraps
    rw [DepthView.refresh, wraps]
    exact seen
  · obtain ⟨picture, text, faithful⟩ := exists_shows reachable follows style
    refine ⟨picture, ?_, faithful⟩
    rw [DepthView.dot, same]
    exact text

/-- Two outputs read gate 4, which reads input 1 and gate 3, which reads input 1
too.  Gate 5 dangles, and one more output reads the constant.  The edge from
input 1 to gate 4 joins two critical nodes, but skips a level. -/
theorem Aig.dot_shows_shared : ∃ (aig : Aig) (fresh : DepthView Aig) (bare full : Picture),
    aig.Reachable ∧ aig.Acyclic ∧ aig.isGate 5 = true ∧
    aig.outputs.toList = [(Edge.plain 4).not, .plain 4, (Edge.plain 0).not] ∧
    aig.dot {} = bare.text {} ∧ bare.Shows aig .plain ∧
    0 ∈ bare.declared ∧ 5 ∉ bare.declared ∧
    DepthView.ofNetwork aig = .ok fresh ∧ fresh.dot {} = full.text {} ∧
    full.Shows aig (.ofDepth aig fresh.depth fresh.level) ∧
    ({ source := 4, target := .output 0, complement := true, critical := false } : Arrow) ∈
      full.arrows ∧
    ({ source := 3, target := .gate 4, complement := true, critical := true } : Arrow) ∈
      full.arrows ∧
    ({ source := 1, target := .gate 4, complement := false, critical := false } : Arrow) ∈
      full.arrows := by
  have checked : (do
      let ended ← Aig.empty.session [.addInput, .addInput,
        .createAnd (.plain 1) (Edge.plain 2).not, .createAnd (.plain 1) (Edge.plain 3).not,
        .createAnd (.plain 2) (.plain 3), .addOutput (Edge.plain 4).not, .addOutput (.plain 4),
        .addOutput (Edge.plain 0).not]
      ended.1.checkIntegrity
      let view ← DepthView.ofNetwork ended.1
      return decide (ended.1.isGate 5 = true ∧
        ended.1.outputs.toList = [(Edge.plain 4).not, .plain 4, (Edge.plain 0).not] ∧
        ended.1.gateFanins? 4 = some (Fanins.mk (.plain 1) (Edge.plain 3).not) ∧
        (DepthFirst.fromOutputs ended.1).toList ended.1 = [4, 3, 2, 1, 0] ∧
        view.isCritical 3 = true ∧ view.isCritical 4 = true ∧
        view.level 1 = 0 ∧ view.level 3 = 1 ∧ view.level 4 = 2)) = .ok true := by
    decide +kernel
  simp only [bind_eq_ok, pure_eq_ok, decide_eq_true_eq] at checked
  obtain ⟨⟨aig, _⟩, ended, _, intact, view, seen, isGate, outputs, stored, listed, critical3,
    critical4, level1, level3, level4⟩ := checked
  have reachable : aig.Reachable := Aig.evolves_of_session ended
  have acyclic := acyclic_of_checkIntegrity intact
  obtain ⟨⟨bare, bareText, bareShows⟩, viewed⟩ := Aig.dot_shows reachable {}
  obtain ⟨fresh, found, _, same, upToDate, full, fullText, fullShows⟩ := viewed acyclic
  cases seen.symm.trans found
  have below (id : Nat) : aig.BelowOutputs id ↔ id ∈ [4, 3, 2, 1, 0] := by
    rw [← listed, (listsOnce_toList aig).mem_iff]
  have critical := upToDate.critical
  rw [same] at critical
  have next : (Notes.ofDepth aig view.depth view.level).CriticalEdge 3 4 :=
    ⟨(critical 3).mp critical3, (critical 4).mp critical4, by rw [level3, level4]⟩
  have skips : ¬ (Notes.ofDepth aig view.depth view.level).CriticalEdge 1 4 := by
    rintro ⟨_, _, consecutive⟩
    rw [level1, level4] at consecutive
    cases consecutive
  have first : aig.outputs[0]? = some (Edge.plain 4).not := by
    rw [← Array.getElem?_toList, outputs]
    rfl
  have drawn : aig.BelowOutputs 4 := (below 4).mpr (by decide)
  refine ⟨aig, view, bare, full, reachable, acyclic, isGate, outputs, bareText, bareShows, ?_, ?_,
    seen, fullText, fullShows, ?_, ?_, ?_⟩
  · rw [bareShows.declared.mem_iff, below]
    decide
  · rw [bareShows.declared.mem_iff, below]
    decide
  · exact (fullShows.arrows.mem_iff _).mpr (.output first)
  · exact (fullShows.arrows.mem_iff _).mpr
      (.fanin drawn stored (.tail _ (.head _)) (iff_of_true rfl next))
  · exact (fullShows.arrows.mem_iff _).mpr
      (.fanin drawn stored (.head _) (iff_of_false Bool.false_ne_true skips))

end AndInverter
