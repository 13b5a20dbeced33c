import AndInverter.Aig.Integrity
import AndInverter.Proofs.Rewriting.Search
import AndInverter.Proofs.Substitution.Levels
import AndInverter.Proofs.Substitution.Termination

/-!
# Rewriting and depth

A run advances from one fresh view to the next, one rewrite at a time.  A
replacement is no higher than the node, so it cannot depend on it, and a
substitution that settles raises no level.  So as long as the substitutions of
a run settle, no output gets deeper.
-/

namespace AndInverter

/-- Every entry of the worklist comes to its end. -/
def Aig.Settles (aig : Aig) (substitution : Substitution) : Prop :=
  ∃ fuel, aig.settles fuel [] [substitution] = true

namespace Rewriting

open DepthView Aig

/-- The next thing that a run does: it has room for a rewrite, and the search
finds one. -/
def Due (parameters : Parameters) (rewrites : Nat) (view found : DepthView Aig)
    (substitution : Substitution) : Prop :=
  parameters.reached rewrites = false ∧ ∃ rule, search parameters view =
    .ok { view := found, rewrite := some (rule, substitution) }

/-- The views at which a run stands after some rewrites.  A rewrite is
gainless if the replacement is not below the level of the node. -/
inductive Advances (parameters : Parameters) (first : DepthView Aig) :
    (rewrites gainless : Nat) → DepthView Aig → Prop
  | start : Advances parameters first 0 0 first
  | rewrite {rewrites gainless fuel : Nat} {view found fresh : DepthView Aig}
      {substitution : Substitution} {next : Aig} {changes : List Change}
      (earlier : Advances parameters first rewrites gainless view)
      (due : Due parameters rewrites view found substitution)
      (substituted : found.network.substitute fuel substitution.old substitution.new =
        .ok (next, changes))
      (refreshed : DepthView.ofNetwork next = .ok fresh) :
      Advances parameters first (rewrites + 1)
        (gainless + if found.level substitution.old ≤ found.level substitution.new.node then 1
          else 0) fresh

def ComesTo (parameters : Parameters) (aig store : Aig) (substitution : Substitution) : Prop :=
  ∃ first rewrites gainless view found, DepthView.ofNetwork aig = .ok first ∧
    Advances parameters first rewrites gainless view ∧
    Due parameters rewrites view found substitution ∧ found.network = store

/-- Every substitution that a run on a store comes to settles. -/
def Settling (parameters : Parameters) (aig : Aig) : Prop :=
  ∀ store substitution, ComesTo parameters aig store substitution → store.Settles substitution

variable {parameters : Parameters} {first view found fresh : DepthView Aig}
  {rewrites gainless : Nat} {rule : Rule} {substitution : Substitution}

/-! ### One rewrite -/

theorem Finds.tracks (finds : Finds parameters view rule substitution found) : found.Tracks := by
  obtain ⟨_, _, _, builds⟩ := finds.recipe
  exact builds.tracks

theorem Finds.grown (finds : Finds parameters view rule substitution found) :
    view.Extends found := by
  obtain ⟨_, _, _, builds⟩ := finds.recipe
  exact builds.grown

theorem Finds.isGate (current : Current view)
    (finds : Finds parameters view rule substitution found) :
    view.network.isGate substitution.old = true := by
  obtain ⟨_, examined, _, _⟩ := finds.recipe
  exact (Rule.computes_of_examine current.bookkeeping.toReferences examined).isGate

theorem Finds.level_le (current : Current view)
    (finds : Finds parameters view rule substitution found) :
    found.level substitution.new.node ≤ found.level substitution.old := by
  obtain ⟨recipe, examined, _, builds⟩ := finds.recipe
  obtain ⟨fanins, stored⟩ := isGate_iff.mp (finds.isGate current)
  rw [builds.grown.level _ (lt_size_of_gateFanins? stored)]
  apply Nat.le_trans builds.height
  exact (Rule.suits_of_examine current.truthful current.bookkeeping.toReferences examined).height

theorem Finds.applies (current : Current view)
    (finds : Finds parameters view rule substitution found) :
    found.network.applies substitution = true := by
  obtain ⟨_, _, _, builds⟩ := finds.recipe
  obtain ⟨fanins, stored⟩ := isGate_iff.mp (finds.isGate current)
  exact applies_iff.mpr
    ⟨finds.different, builds.grown.grows.live (isDead_of_gateFanins? stored), builds.live⟩

/-- A replacement that is no higher than the node does not depend on it. -/
theorem Finds.independent (current : Current view)
    (finds : Finds parameters view rule substitution found) :
    found.network.independent substitution :=
  finds.tracks.levels.not_reaches finds.different (finds.level_le current)

theorem Finds.exists_folding (current : Current view)
    (finds : Finds parameters view rule substitution found)
    (settles : found.network.Settles substitution) :
    ∃ image next changes fresh, Drains found.network [substitution] next changes ∧
      Folding found.network [] substitution image next [] ∧
      DepthView.ofNetwork next = .ok fresh ∧ Current fresh := by
  obtain ⟨fuel, settled⟩ := settles
  obtain ⟨image, next, changes, drains, folding⟩ := Aig.exists_folding
    finds.tracks.orderly (finds.applies current) (finds.independent current) settled
  have bookkeeping := folding.orderly.bookkeeping
  obtain ⟨fresh, seen⟩ := exists_ofNetwork bookkeeping.toReferences folding.orderly.acyclic
  have ports := drains.edits.ports finds.tracks.ports
  exact ⟨image, next, changes, fresh, drains, folding, seen,
    current_of_ofNetwork bookkeeping ports seen⟩

/-- By position, no output lies deeper than before. -/
structure Shallower (view next : DepthView Aig) : Prop where
  outputs : next.network.outputs.size = view.network.outputs.size
  level : ∀ (index : Nat) (output output' : Edge), view.network.outputs[index]? = some output →
    next.network.outputs[index]? = some output' → next.level output'.node ≤ view.level output.node

private theorem shallower_refl (view : DepthView Aig) : Shallower view view := by
  refine { outputs := rfl, level := ?_ }
  intro index output output' present later
  rw [present] at later
  cases later
  exact Nat.le_refl _

theorem Shallower.trans {middle next : DepthView Aig} (earlier : Shallower view middle)
    (later : Shallower middle next) : Shallower view next := by
  refine { outputs := later.outputs.trans earlier.outputs, level := ?_ }
  intro index output output' present last
  have inside : index < middle.network.outputs.size := by
    rw [← later.outputs]
    exact (Array.getElem?_eq_some_iff.mp last).1
  have between := Array.getElem?_eq_getElem inside
  exact Nat.le_trans (later.level index _ output' between last)
    (earlier.level index output _ present between)

theorem Shallower.depth_le {next : DepthView Aig} (shallower : Shallower view next)
    (agrees : view.DepthAgrees) (agrees' : next.DepthAgrees) : next.depth ≤ view.depth := by
  rcases agrees'.attained with zero | ⟨root, isRoot, deepest⟩
  · rw [zero]
    exact Nat.zero_le _
  · obtain ⟨output', member, rfl⟩ := List.mem_map.mp isRoot
    obtain ⟨index, last⟩ := Array.mem_iff_getElem?.mp (Array.mem_toList_iff.mp member)
    have inside : index < view.network.outputs.size := by
      rw [← shallower.outputs]
      exact (Array.getElem?_eq_some_iff.mp last).1
    have present := Array.getElem?_eq_getElem inside
    have listed : view.network.outputs[index].node ∈ Network.roots view.network := by
      apply List.mem_map.mpr
      exact ⟨_, Array.mem_toList_iff.mpr (Array.getElem_mem inside), rfl⟩
    calc next.depth = next.level output'.node := deepest.symm
      _ ≤ view.level view.network.outputs[index].node :=
        shallower.level index _ output' present last
      _ ≤ view.depth := agrees.bound _ listed

theorem Finds.shallower (current : Current view)
    (finds : Finds parameters view rule substitution found) {image : Nat → Nat} {next : Aig}
    (folding : Folding found.network [] substitution image next [])
    (refreshed : DepthView.ofNetwork next = .ok fresh) : Shallower view fresh := by
  obtain rfl := network_of_ofNetwork refreshed
  have same : fresh.network.outputs.map (·.node) =
      view.network.outputs.map fun output => image output.node := by
    rw [folding.outputs, finds.grown.outputs]
  constructor
  · have sizes := congrArg Array.size same
    rwa [Array.size_map, Array.size_map] at sizes
  · intro index output output' present later
    have nodes := congrArg (·[index]?) same
    simp only [Array.getElem?_map, present, later, Option.map_some, Option.some.injEq] at nodes
    have live := current.bookkeeping.outputs_live output
      (Array.mem_iff_getElem?.mpr ⟨index, present⟩)
    calc fresh.level output'.node = fresh.level (image output.node) := by rw [nodes]
      _ ≤ found.level output.node := folding.level_image_le finds.tracks.levels
        (truthful_of_ofNetwork refreshed).levels (finds.level_le current) _
      _ = view.level output.node := finds.grown.level _ (lt_size_of_live live)

/-! ### Runs -/

theorem finds_of_due (current : Current view)
    (due : Due parameters rewrites view found substitution) :
    ∃ rule, Finds parameters view rule substitution found := by
  obtain ⟨_, rule, searched⟩ := due
  rcases search_of_current current parameters with quiet | ⟨_, _, _, searched', finds⟩
  · rw [searched] at quiet
    cases quiet
  · rw [searched] at searched'
    cases searched'
    exact ⟨rule, finds⟩

theorem Finds.current_next (finds : Finds parameters view rule substitution found) {fuel : Nat}
    {next : Aig} {changes : List Change}
    (substituted : found.network.substitute fuel substitution.old substitution.new =
      .ok (next, changes))
    (refreshed : DepthView.ofNetwork next = .ok fresh) : Current fresh := by
  have edits := (substitute_drains substituted).edits
  exact current_of_ofNetwork (edits.bookkeeping finds.tracks.bookkeeping)
    (edits.ports finds.tracks.ports) refreshed

theorem Advances.current (start : Current first)
    (advances : Advances parameters first rewrites gainless view) : Current view := by
  induction advances with
  | start => exact start
  | rewrite _ due substituted refreshed induction =>
      obtain ⟨_, finds⟩ := finds_of_due induction due
      exact finds.current_next substituted refreshed

theorem Settling.settles (settling : Settling parameters first.network) (start : Current first)
    (advances : Advances parameters first rewrites gainless view)
    (due : Due parameters rewrites view found substitution) :
    found.network.Settles substitution :=
  settling _ _ ⟨first, _, _, _, _, start.fresh, advances, due, rfl⟩

/-- As long as its substitutions settle, a run brings no output deeper. -/
theorem Advances.shallower (start : Current first)
    (settling : Settling parameters first.network)
    (advances : Advances parameters first rewrites gainless view) : Shallower first view := by
  induction advances with
  | start => exact shallower_refl first
  | @rewrite _ _ _ view found fresh substitution next _ earlier due substituted refreshed
      induction =>
      have current := earlier.current start
      obtain ⟨_, finds⟩ := finds_of_due current due
      obtain ⟨image, last, _, _, drains, folding, _, _⟩ :=
        finds.exists_folding current (settling.settles start earlier due)
      obtain ⟨rfl, _⟩ := drains.unique (substitute_drains substituted)
      exact induction.trans (finds.shallower current folding refreshed)

theorem rewrites_record (statistics : Statistics) (rule : Rule) :
    (statistics.record rule).rewrites = statistics.rewrites + 1 := by
  cases rule <;> simp only [Statistics.record, Statistics.rewrites] <;> omega

private theorem depthBefore_record (statistics : Statistics) (rule : Rule) :
    (statistics.record rule).depthBefore = statistics.depthBefore := by
  cases rule <;> rfl

/-- How passes from a view come to their end. -/
inductive PassesFrom (fuel : Nat) (parameters : Parameters) (rounds : Nat)
    (statistics : Statistics) (view : DepthView Aig) (run : Run Aig) : Prop
  /-- There is no room for a rewrite. -/
  | full (reached : parameters.reached statistics.rewrites = true)
      (ends : run = {
        statistics := statistics
        view := view
        records := [.stopping statistics.rewrites] })
  /-- There is room for a rewrite, but the search finds none. -/
  | quiet {records : List Record} (room : parameters.reached statistics.rewrites = false)
      (searched : search parameters view = .ok { view := view, rewrite := none })
      (passed : pass fuel parameters view =
        .ok { fired := none, view := view, records := records })
      (ends : run = {
        statistics := { statistics with passes := statistics.passes + 1 }
        view := view
        records := records })
  /-- The rewrite that the search finds is made, and passes go on behind it. -/
  | rewrites {rule : Rule} {substitution : Substitution} {found replaced fresh : DepthView Aig}
      {next : Aig} {changes : List Change} {records : List Record} {later : Run Aig}
      (room : parameters.reached statistics.rewrites = false)
      (searched : search parameters view =
        .ok { view := found, rewrite := some (rule, substitution) })
      (finds : Finds parameters view rule substitution found)
      (passed : pass fuel parameters view =
        .ok { fired := some rule, view := replaced, records := records })
      (substituted : found.network.substitute fuel substitution.old substitution.new =
        .ok (next, changes))
      (refreshed : DepthView.ofNetwork next = .ok fresh)
      (continued : passes fuel parameters rounds
        ({ statistics with passes := statistics.passes + 1 }.record rule) fresh = .ok later)
      (ends : run = { later with records := records ++ later.records })

theorem passesFrom {fuel rounds : Nat} {statistics : Statistics} {run : Run Aig}
    (current : Current view)
    (ended : passes fuel parameters (rounds + 1) statistics view = .ok run) :
    PassesFrom fuel parameters rounds statistics view run := by
  rw [passes] at ended
  split at ended
  · rename_i full
    cases ended
    exact .full full rfl
  · rename_i room
    rw [Bool.not_eq_true] at room
    obtain ⟨⟨fired, replaced, records⟩, passed, outcome⟩ := bind_eq_ok.mp ended
    have made := pass_eq_search fuel parameters view
    rw [passed] at made
    rcases search_of_current current parameters with
      quiet | ⟨rule, substitution, found, searched, finds⟩
    · rw [quiet] at made
      cases made
      cases outcome
      exact .quiet room quiet passed rfl
    · rw [searched] at made
      obtain ⟨rfl, changes, substituted⟩ := Found.make_some made.symm
      obtain ⟨fresh, refreshed, continued⟩ := bind_eq_ok.mp outcome
      obtain ⟨later, endedLater, result⟩ := bind_eq_ok.mp continued
      cases result
      exact .rewrites room searched finds passed (network_of_substitute substituted) refreshed
        endedLater rfl

/-- Passes end at a view to which the run has advanced, with no room for
another rewrite or nothing to be found. -/
theorem passes_advances {fuel rounds : Nat} {statistics : Statistics} {run : Run Aig}
    (start : Current first)
    (advances : Advances parameters first statistics.rewrites gainless view)
    (ended : passes fuel parameters rounds statistics view = .ok run) :
    ∃ gainless', Advances parameters first run.statistics.rewrites gainless' run.view ∧
      run.statistics.depthBefore = statistics.depthBefore ∧
      (parameters.reached run.statistics.rewrites = true ∨
        search parameters run.view = .ok { view := run.view, rewrite := none }) := by
  induction rounds generalizing statistics gainless view run with
  | zero => cases ended
  | succ rounds induction =>
      cases passesFrom (advances.current start) ended with
      | full reached ends =>
          cases ends
          exact ⟨gainless, advances, rfl, .inl reached⟩
      | quiet _ searched _ ends =>
          cases ends
          exact ⟨gainless, advances, rfl, .inr searched⟩
      | @rewrites rule _ _ _ _ _ _ _ _ room searched _ _ substituted refreshed continued ends =>
          cases ends
          have further := advances.rewrite ⟨room, rule, searched⟩ substituted refreshed
          have counted : ({ statistics with passes := statistics.passes + 1 }.record rule).rewrites =
              statistics.rewrites + 1 := rewrites_record _ rule
          obtain ⟨gainless', advanced, depth, stops⟩ := induction (counted ▸ further) continued
          exact ⟨gainless', advanced, depth.trans (depthBefore_record _ rule), stops⟩

theorem optimize_passes {fuel : Nat} {aig : Aig} {run : Run Aig}
    (optimized : optimize fuel parameters aig = .ok run) :
    ∃ first last, DepthView.ofNetwork aig = .ok first ∧
      passes fuel parameters fuel
        { depthBefore := first.depth, gatesBefore := gateCount first } first = .ok last ∧
      ∃ statistics,
        statistics = { last.statistics with
          depthAfter := last.view.depth
          gatesAfter := gateCount last.view } ∧
        run = { last with
          statistics := statistics
          records := last.records ++ [.finished statistics] } := by
  obtain ⟨seen, wrapped, ran⟩ := bind_eq_ok.mp optimized
  obtain ⟨first, refreshed, ranOn⟩ := bind_eq_ok.mp ran
  obtain ⟨last, ended, result⟩ := bind_eq_ok.mp ranOn
  cases result
  have again : DepthView.ofNetwork aig = .ok first := network_of_ofNetwork wrapped ▸ refreshed
  exact ⟨first, last, again, ended, _, rfl, rfl⟩

/-- A run advances from a fresh view of the store to its last view. -/
theorem optimize_advances {fuel : Nat} {aig : Aig} {run : Run Aig} (reachable : aig.Reachable)
    (optimized : optimize fuel parameters aig = .ok run) :
    ∃ first gainless, DepthView.ofNetwork aig = .ok first ∧ Current first ∧
      Advances parameters first run.statistics.rewrites gainless run.view ∧
      run.statistics.depthBefore = first.depth ∧ run.statistics.depthAfter = run.view.depth ∧
      (parameters.reached run.statistics.rewrites = true ∨
        search parameters run.view = .ok { view := run.view, rewrite := none }) := by
  obtain ⟨first, last, seen, ended, _, rfl, rfl⟩ := optimize_passes optimized
  have start := current_of_ofNetwork reachable.bookkeeping reachable.ports seen
  obtain ⟨gainless, advances, depth, ends⟩ := passes_advances start .start ended
  exact ⟨first, gainless, seen, start, advances, depth, rfl, ends⟩

/-- The statistics of a run give the depths that fresh views find before and
after it.  If every substitution that the run comes to settles, no output lies
deeper after the run than before. -/
theorem optimize_depth {fuel : Nat} {aig : Aig} {run : Run Aig} (reachable : aig.Reachable)
    (optimized : optimize fuel parameters aig = .ok run) :
    ∃ before after, DepthView.ofNetwork aig = .ok before ∧
      DepthView.ofNetwork run.view.network = .ok after ∧
      run.statistics.depthBefore = before.depth ∧ run.statistics.depthAfter = after.depth ∧
      (Settling parameters aig →
        after.depth ≤ before.depth ∧ run.view.network.outputs.size = aig.outputs.size ∧
          ∀ (index : Nat) (output output' : Edge), aig.outputs[index]? = some output →
            run.view.network.outputs[index]? = some output' →
            after.level output'.node ≤ before.level output.node) := by
  obtain ⟨first, gainless, seen, start, advances, before, after, _⟩ :=
    optimize_advances reachable optimized
  have current := advances.current start
  refine ⟨first, run.view, seen, current.fresh, before, after, ?_⟩
  intro settling
  obtain rfl := network_of_ofNetwork seen
  have shallower := advances.shallower start settling
  exact ⟨shallower.depth_le start.truthful.depth current.truthful.depth, shallower.outputs,
    shallower.level⟩

/-- A chain of three gates is balanced by one rewrite, whose substitution
settles. -/
theorem optimize_depth_chain : ∃ aig run before after, Aig.Reachable aig ∧
    optimize 20 { maxRewrites := some 1 } aig = .ok run ∧
      DepthView.ofNetwork aig = .ok before ∧ DepthView.ofNetwork run.view.network = .ok after ∧
      before.depth = 3 ∧ after.depth = 2 ∧
      Settling { maxRewrites := some 1 } aig ∧
      ∀ (index : Nat) (output output' : Edge), aig.outputs[index]? = some output →
        run.view.network.outputs[index]? = some output' →
        after.level output'.node ≤ before.level output.node := by
  have checked : (do
      let ended ← Aig.empty.session [.addInput, .addInput, .addInput, .addInput,
        .createAnd (.plain 1) (.plain 2), .createAnd (.plain 5) (.plain 3),
        .createAnd (.plain 6) (.plain 4), .addOutput (Edge.plain 7).not]
      let run ← optimize 20 { maxRewrites := some 1 } ended.1
      let first ← DepthView.ofNetwork ended.1
      let found ← search { maxRewrites := some 1 } first
      return run.statistics.depthBefore == 3 && run.statistics.depthAfter == 2 &&
        found.rewrite.all fun rewrite : Rule × Substitution =>
          found.view.network.settles 10 [] [rewrite.2]) = .ok true := by
    decide +kernel
  obtain ⟨⟨aig, log⟩, ended, rest⟩ := bind_eq_ok.mp checked
  obtain ⟨run, optimized, rest⟩ := bind_eq_ok.mp rest
  obtain ⟨first, seen, rest⟩ := bind_eq_ok.mp rest
  obtain ⟨found, searched, results⟩ := bind_eq_ok.mp rest
  simp only [pure_eq_ok, Bool.and_eq_true, beq_iff_eq] at results
  obtain ⟨⟨deep, shallow⟩, settled⟩ := results
  have reachable : aig.Reachable := evolves_of_session ended
  have settling : Settling { maxRewrites := some 1 } aig := by
    intro store substitution comes
    obtain ⟨first', rewrites, gainless, view, found', seen', advances, due, rfl⟩ := comes
    cases advances with
    | start =>
        obtain ⟨_, rule, searched'⟩ := due
        rw [seen] at seen'
        cases seen'
        rw [searched] at searched'
        cases searched'
        exact ⟨10, settled⟩
    | rewrite _ _ _ _ =>
        obtain ⟨room, _⟩ := due
        simp [Parameters.reached] at room
  obtain ⟨before, after, seenBefore, seenAfter, depthBefore, depthAfter, bound⟩ :=
    optimize_depth reachable optimized
  exact ⟨aig, run, before, after, reachable, optimized, seenBefore, seenAfter,
    depthBefore.symm.trans deep, depthAfter.symm.trans shallow, settling, (bound settling).2.2⟩

/-- A network in which one rewrite makes the output deeper. -/
def deepeningSession : List Operation :=
  [.addInput, .addInput, .addInput, .addInput,
    .createAnd (.plain 1) (Edge.plain 2).not, .createAnd (.plain 5) (.plain 3),
    .createAnd (.plain 6) (.plain 3), .createAnd (.plain 4) (Edge.plain 6).not,
    .createAnd (Edge.plain 8).not (Edge.plain 3).not, .createAnd (.plain 7) (.plain 9),
    .createAnd (.plain 6) (.plain 9), .createAnd (Edge.plain 8).not (.plain 3),
    .createAnd (Edge.plain 12).not (Edge.plain 3).not, .createAnd (.plain 7) (.plain 13),
    .createAnd (.plain 6) (.plain 13), .createAnd (.plain 13) (.plain 12),
    .createAnd (.plain 4) (Edge.plain 3).not, .createAnd (Edge.plain 16).not (.plain 17),
    .addOutput (Edge.plain 10).not, .substitute 10 4 (.plain 7)]

/-- A rewrite can make the network deeper: what it merges has come to read a
gate that was to be replaced. -/
theorem not_optimize_depth : ∃ aig run before after output output', Aig.Reachable aig ∧
    aig.Acyclic ∧ aig.checkIntegrity = .ok () ∧
      optimize 20 { maxRewrites := some 1 } aig = .ok run ∧
      DepthView.ofNetwork aig = .ok before ∧ DepthView.ofNetwork run.view.network = .ok after ∧
      run.statistics.depthBefore < run.statistics.depthAfter ∧
      aig.outputs[0]? = some output ∧ run.view.network.outputs[0]? = some output' ∧
      before.level output.node < after.level output'.node := by
  have checked : (do
      let ended ← Aig.empty.session deepeningSession
      let _ ← ended.1.checkIntegrity
      let run ← optimize 20 { maxRewrites := some 1 } ended.1
      let before ← DepthView.ofNetwork ended.1
      let after ← DepthView.ofNetwork run.view.network
      return decide (run.statistics.depthBefore < run.statistics.depthAfter) &&
        decide (ended.1.outputs[0]? = some (Edge.plain 10).not) &&
        decide (run.view.network.outputs[0]? = some (Edge.plain 15).not) &&
        decide (before.level 10 < after.level 15)) = .ok true := by
    decide +kernel
  obtain ⟨⟨aig, log⟩, ended, rest⟩ := bind_eq_ok.mp checked
  obtain ⟨_, sound, rest⟩ := bind_eq_ok.mp rest
  obtain ⟨run, optimized, rest⟩ := bind_eq_ok.mp rest
  obtain ⟨before, seen, rest⟩ := bind_eq_ok.mp rest
  obtain ⟨after, seen', results⟩ := bind_eq_ok.mp rest
  simp only [pure_eq_ok, Bool.and_eq_true, decide_eq_true_eq] at results
  obtain ⟨⟨⟨deeper, output⟩, output'⟩, higher⟩ := results
  exact ⟨aig, run, before, after, _, _, evolves_of_session ended,
    Network.acyclic_of_ofNetwork seen, sound, optimized, seen, seen', deeper, output, output',
    higher⟩

end Rewriting

end AndInverter
