import AndInverter.Aiger.Builder
import AndInverter.Proofs.Aig.Intact

/-!
# Building keeps the graph in order

While a file is read, the graph is well-formed and every variable known so far
is bound to a live signal.  Each operation succeeds exactly under conditions
on the known variables, and says which signal it binds.
-/

namespace AndInverter

namespace Aiger.Builder

/-- The graph is in order, and the variables known so far are bound to live
signals. -/
structure Sound (builder : Builder) : Prop where
  intact : builder.aig.Intact
  live : ∀ (name : Nat) (edge : Edge), builder.signals[name]? = some edge →
    builder.aig.isDead edge.node = false
  constant : builder.signals[0]? = some (.constant false)

def Admits (builder : Builder) (name : Nat) : Prop :=
  name ≤ builder.maxVariable ∧ name ∉ builder.signals

/-- The builder after a variable was bound to a signal of a later graph. -/
def bound (builder : Builder) (name : Nat) (built : Edge × Aig) : Builder :=
  { aig := built.2
    signals := builder.signals.insert name built.1
    maxVariable := builder.maxVariable }

variable {builder next : Builder}

theorem define_eq_ok_iff (builder : Builder) (name : Nat) (built : Edge × Aig) :
    { builder with aig := built.2 }.define name built.1 = .ok next ↔
      builder.Admits name ∧ next = builder.bound name built := by
  unfold define Admits
  split
  · rename_i large
    have excluded : ¬ name ≤ builder.maxVariable := Nat.not_le_of_lt large
    simp [excluded]
  · split
    · rename_i known
      simp [Std.TreeMap.mem_iff_contains, known]
    · rename_i small unknown
      simp [Std.TreeMap.mem_iff_contains, unknown, Nat.le_of_not_lt small, bound, eq_comm]

theorem addInput_eq_ok_iff {name : Nat} :
    builder.addInput name = .ok next ↔
      builder.Admits name ∧ next = builder.bound name builder.aig.addInput :=
  define_eq_ok_iff builder name builder.aig.addInput

theorem resolve_eq_ok_iff {literal : Nat} {edge : Edge} :
    builder.resolve literal = .ok edge ↔ builder.signal? literal = some edge := by
  unfold resolve
  split
  · rename_i found
    simp [found]
  · rename_i missing
    simp [missing]

theorem signal?_eq_some_iff {literal : Nat} {edge : Edge} :
    builder.signal? literal = some edge ↔
      ∃ signal, builder.signals[literal / 2]? = some signal ∧
        signal.complementIf (decide (literal % 2 = 1)) = edge :=
  Option.map_eq_some_iff

theorem exists_signal?_iff {literal : Nat} :
    (∃ edge, builder.signal? literal = some edge) ↔ literal / 2 ∈ builder.signals := by
  rw [← Option.isSome_iff_exists, signal?, Option.isSome_map, Std.TreeMap.isSome_getElem?_iff_mem]

theorem Sound.live_signal? (sound : builder.Sound) {literal : Nat} {edge : Edge}
    (found : builder.signal? literal = some edge) : builder.aig.isDead edge.node = false := by
  obtain ⟨signal, stored, rfl⟩ := signal?_eq_some_iff.mp found
  exact sound.live _ signal stored

theorem Sound.addGate_eq_ok_iff (sound : builder.Sound) {definition : Definition}
    {left right : Edge} (leftFound : builder.signal? definition.left = some left)
    (rightFound : builder.signal? definition.right = some right) :
    builder.addGate definition left right = .ok next ↔
      builder.Admits definition.target ∧
        next = builder.bound definition.target (builder.aig.conjoin left right) := by
  have created := Aig.createAnd_of_live (sound.live_signal? leftFound)
    (sound.live_signal? rightFound)
  rw [addGate, created]
  exact define_eq_ok_iff builder definition.target (builder.aig.conjoin left right)

theorem Sound.build_eq_ok_iff (sound : builder.Sound) {definition : Definition} :
    builder.build definition = .ok next ↔
      ∃ left right, builder.signal? definition.left = some left ∧
        builder.signal? definition.right = some right ∧
        builder.Admits definition.target ∧
        next = builder.bound definition.target (builder.aig.conjoin left right) := by
  simp only [build, bind_eq_ok, resolve_eq_ok_iff]
  constructor
  · rintro ⟨left, leftFound, right, rightFound, added⟩
    exact ⟨left, right, leftFound, rightFound,
      (sound.addGate_eq_ok_iff leftFound rightFound).mp added⟩
  · rintro ⟨left, right, leftFound, rightFound, outcome⟩
    exact ⟨left, leftFound, right, rightFound,
      (sound.addGate_eq_ok_iff leftFound rightFound).mpr outcome⟩

/-- The given variables were defined on top of those known before, and all
that was there has stayed. -/
structure Extends (builder : Builder) (names : List Nat) (next : Builder) : Prop where
  sound : next.Sound
  known : ∀ name, name ∈ next.signals ↔ name ∈ names ∨ name ∈ builder.signals
  kept : ∀ (name : Nat) (edge : Edge), builder.signals[name]? = some edge →
    next.signals[name]? = some edge
  grows : builder.aig.Grows next.aig
  inputs : ∀ (index id : Nat), builder.aig.inputs[index]? = some id →
    next.aig.inputs[index]? = some id
  outputs : next.aig.outputs = builder.aig.outputs
  maxVariable : next.maxVariable = builder.maxVariable

theorem Sound.extends_self (sound : builder.Sound) : builder.Extends [] builder :=
  { sound := sound
    known := by simp
    kept := fun _ _ stored => stored
    grows := fun _ _ stored => stored
    inputs := fun _ _ registered => registered
    outputs := rfl
    maxVariable := rfl }

theorem Extends.trans {middle : Builder} {names more : List Nat}
    (first : builder.Extends names middle) (second : middle.Extends more next) :
    builder.Extends (names ++ more) next := by
  refine { sound := second.sound, known := ?_, kept := ?_, grows := first.grows.trans second.grows
           inputs := ?_, outputs := second.outputs.trans first.outputs
           maxVariable := second.maxVariable.trans first.maxVariable }
  · intro name
    rw [second.known, first.known, List.mem_append]
    tauto
  · intro name edge stored
    exact second.kept name edge (first.kept name edge stored)
  · intro index id registered
    exact second.inputs index id (first.inputs index id registered)

theorem Sound.extends_bound (sound : builder.Sound) {name : Nat} (admits : builder.Admits name)
    {built : Edge × Aig} (intact : built.2.Intact)
    (live : built.2.isDead built.1.node = false) (grows : builder.aig.Grows built.2)
    (inputs : ∀ (index id : Nat), builder.aig.inputs[index]? = some id →
      built.2.inputs[index]? = some id)
    (outputs : built.2.outputs = builder.aig.outputs) :
    builder.Extends [name] (builder.bound name built) := by
  have lookup : ∀ other : Nat, (builder.bound name built).signals[other]? =
      if name = other then some built.1 else builder.signals[other]? := by
    intro other
    simp [bound, Std.TreeMap.getElem?_insert]
  have kept : ∀ (other : Nat) (edge : Edge), builder.signals[other]? = some edge →
      (builder.bound name built).signals[other]? = some edge := by
    intro other edge stored
    rw [lookup, if_neg, stored]
    rintro rfl
    exact admits.2 (Std.TreeMap.isSome_getElem?_iff_mem.mp (by simp [stored]))
  refine { sound := { intact := intact, live := ?_, constant := ?_ }, known := ?_, kept := kept
           grows := grows, inputs := inputs, outputs := outputs, maxVariable := rfl }
  · intro other edge stored
    rw [lookup] at stored
    split at stored
    · cases stored
      exact live
    · exact grows.live (sound.live other edge stored)
  · exact kept 0 _ sound.constant
  · intro other
    rw [bound, Std.TreeMap.mem_insert, Std.LawfulEqCmp.compare_eq_iff_eq, List.mem_singleton,
      eq_comm]

theorem Sound.extends_addInput (sound : builder.Sound) {name : Nat}
    (added : builder.addInput name = .ok next) : builder.Extends [name] next := by
  obtain ⟨admits, rfl⟩ := addInput_eq_ok_iff.mp added
  refine sound.extends_bound admits sound.intact.addInput ?_ (Aig.addInput_grows _) ?_ rfl
  · exact Aig.isDead_eq_false_iff.mpr ⟨_, (Aig.node?_addInput ..).trans (if_pos rfl)⟩
  · intro index id registered
    have inside := (Array.getElem?_eq_some_iff.mp registered).1
    show (builder.aig.inputs.push builder.aig.size)[index]? = some id
    rw [Array.getElem?_push, if_neg (Nat.ne_of_lt inside), registered]

theorem Sound.extends_build (sound : builder.Sound) {definition : Definition}
    (built : builder.build definition = .ok next) :
    builder.Extends [definition.target] next := by
  obtain ⟨left, right, leftFound, rightFound, admits, rfl⟩ := sound.build_eq_ok_iff.mp built
  have leftLive := sound.live_signal? leftFound
  have rightLive := sound.live_signal? rightFound
  obtain ⟨inputs, outputs⟩ := builder.aig.conjoin_interface left right
  refine sound.extends_bound admits (sound.intact.conjoin leftLive rightLive)
    (sound.intact.live_conjoin leftLive rightLive) (builder.aig.conjoin_grows left right) ?_
    outputs
  intro index id registered
  rw [inputs, registered]

theorem Sound.extends_foldlM {Entry : Type} {name : Entry → Nat}
    {advance : Builder → Entry → Except Failure Builder}
    (step : ∀ {builder next : Builder} {entry : Entry}, builder.Sound →
      advance builder entry = .ok next → builder.Extends [name entry] next)
    (sound : builder.Sound) {entries : List Entry}
    (advanced : entries.foldlM advance builder = .ok next) :
    builder.Extends (entries.map name) next := by
  induction entries generalizing builder with
  | nil =>
      cases advanced
      exact sound.extends_self
  | cons entry entries induction =>
      rw [List.foldlM_cons] at advanced
      obtain ⟨middle, first, rest⟩ := bind_eq_ok.mp advanced
      have extended := step sound first
      exact extended.trans (induction extended.sound rest)

theorem Sound.extends_addInputs (sound : builder.Sound) {names : List Nat}
    (added : names.foldlM addInput builder = .ok next) : builder.Extends names next := by
  have extended := sound.extends_foldlM (fun sound added => sound.extends_addInput added) added
  rwa [List.map_id'] at extended

theorem Sound.extends_builds (sound : builder.Sound) {definitions : List Definition}
    (built : definitions.foldlM build builder = .ok next) :
    builder.Extends (definitions.map (·.target)) next :=
  sound.extends_foldlM (fun sound built => sound.extends_build built) built

theorem sound_start (header : Header) : (start header).Sound := by
  have lookup : ∀ (name : Nat) (edge : Edge), (start header).signals[name]? = some edge →
      edge = .constant false := by
    intro name edge stored
    simp [start, Std.TreeMap.getElem?_insert] at stored
    exact stored.2.symm
  refine { intact := Aig.intact_empty, live := ?_, constant := ?_ }
  · intro name edge stored
    rw [lookup name edge stored]
    rfl
  · simp [start]

/-! ### Outputs -/

theorem Sound.addOutput_eq_ok_iff (sound : builder.Sound) {literal : Nat} :
    builder.addOutput literal = .ok next ↔
      ∃ edge, builder.signal? literal = some edge ∧
        next = { builder with aig := builder.aig.appendOutput edge } := by
  simp only [addOutput, bind_eq_ok, resolve_eq_ok_iff, pure_eq_ok]
  refine exists_congr fun edge => and_congr_right fun found => ?_
  have added : builder.aig.addOutput edge = .ok (builder.aig.appendOutput edge) := by
    simp only [Aig.addOutput, Aig.checkEdge, sound.live_signal? found]
    rfl
  simp [added, eq_comm]

theorem Sound.withOutput (sound : builder.Sound) {literal : Nat} {edge : Edge}
    (found : builder.signal? literal = some edge) :
    { builder with aig := builder.aig.appendOutput edge }.Sound := by
  refine { intact := sound.intact.appendOutput (sound.live_signal? found)
           live := fun name signal stored => ?_, constant := sound.constant }
  rw [Aig.isDead, Aig.node?_appendOutput]
  exact sound.live name signal stored

/-- Outputs are added for defined literals only, and nothing else changes. -/
theorem Sound.addOutputs_eq_ok_iff (sound : builder.Sound) {literals : List Nat} :
    literals.foldlM addOutput builder = .ok next ↔
      ∃ edges : List Edge, literals.map builder.signal? = edges.map some ∧
        next = { builder with aig := edges.foldl Aig.appendOutput builder.aig } := by
  induction literals generalizing builder with
  | nil =>
      constructor
      · intro done
        cases done
        exact ⟨[], rfl, rfl⟩
      · rintro ⟨edges, found, rfl⟩
        cases edges with
        | nil => rfl
        | cons edge edges => cases found
  | cons literal literals induction =>
      rw [List.foldlM_cons, bind_eq_ok]
      constructor
      · rintro ⟨middle, first, rest⟩
        obtain ⟨edge, found, rfl⟩ := sound.addOutput_eq_ok_iff.mp first
        obtain ⟨edges, others, rfl⟩ := (induction (sound.withOutput found)).mp rest
        exact ⟨edge :: edges, congrArg₂ List.cons found others, rfl⟩
      · rintro ⟨edges, found, rfl⟩
        cases edges with
        | nil => cases found
        | cons edge edges =>
            obtain ⟨own, others⟩ := List.cons.inj found
            exact ⟨_, sound.addOutput_eq_ok_iff.mpr ⟨edge, own, rfl⟩,
              (induction (sound.withOutput own)).mpr ⟨edges, others, rfl⟩⟩

theorem Sound.intact_appendOutputs (sound : builder.Sound) {literals : List Nat}
    {edges : List Edge} (found : literals.map builder.signal? = edges.map some) :
    (edges.foldl Aig.appendOutput builder.aig).Intact := by
  refine sound.intact.appendOutputs fun edge member => ?_
  have listed : some edge ∈ literals.map builder.signal? := by
    rw [found]
    exact List.mem_map_of_mem member
  obtain ⟨literal, _, signal⟩ := List.mem_map.mp listed
  exact sound.live_signal? signal

theorem Sound.finish_eq_ok_iff (sound : builder.Sound) {literals : List Nat} {aig : Aig} :
    builder.finish literals = .ok aig ↔
      ∃ edges : List Edge, literals.map builder.signal? = edges.map some ∧
        aig = edges.foldl Aig.appendOutput builder.aig := by
  simp only [finish, bind_eq_ok, sound.addOutputs_eq_ok_iff, pure_eq_ok]
  constructor
  · rintro ⟨_, ⟨edges, found, rfl⟩, _, _, rfl⟩
    exact ⟨edges, found, rfl⟩
  · rintro ⟨edges, found, rfl⟩
    have checked := (sound.intact_appendOutputs found).wellFormed.checkIntegrity
    exact ⟨_, ⟨edges, found, rfl⟩, (), checked, rfl⟩

theorem Sound.exists_finish_iff (sound : builder.Sound) {literals : List Nat} :
    (∃ aig, builder.finish literals = .ok aig) ↔
      ∀ literal ∈ literals, literal / 2 ∈ builder.signals := by
  simp only [sound.finish_eq_ok_iff]
  constructor
  · rintro ⟨_, edges, found, _⟩ literal member
    have listed : builder.signal? literal ∈ edges.map some := by
      rw [← found]
      exact List.mem_map_of_mem member
    obtain ⟨edge, _, signal⟩ := List.mem_map.mp listed
    exact exists_signal?_iff.mp ⟨edge, signal.symm⟩
  · intro defined
    refine ⟨_, literals.map fun literal => (builder.signal? literal).getD default, ?_, rfl⟩
    rw [List.map_map]
    refine List.map_congr_left fun literal member => ?_
    obtain ⟨edge, found⟩ := exists_signal?_iff.mpr (defined literal member)
    simp [found]

end Aiger.Builder

end AndInverter
