import AndInverter.Proofs.Aiger.Acceptance

/-!
# What an accepted file denotes

A valuation of the graph that was read is a valuation of the variables of the
file, and it solves the equations of the file.  The definitions have an order,
so no other valuation of the defined variables does.  Hence each output has
the value of its literal, in whatever order the gates are listed.
-/

namespace AndInverter

namespace Aiger

/-- A valuation of the variables solves the equation of a definition. -/
def Definition.Solved (definition : Definition) (valuation : Nat → Bool) : Prop :=
  valuation definition.target =
    (Description.literalValue valuation definition.left &&
      Description.literalValue valuation definition.right)

namespace Builder

variable {builder next : Builder}

def value (builder : Builder) (valuation : Nat → Bool) (name : Nat) : Bool :=
  ((builder.signals[name]?).map (·.value valuation)).getD false

private theorem value_of_stored {name : Nat} {edge : Edge}
    (stored : builder.signals[name]? = some edge)
    (valuation : Nat → Bool) : builder.value valuation name = edge.value valuation := by
  rw [value, stored]
  rfl

theorem value_signal? {literal : Nat} {edge : Edge}
    (found : builder.signal? literal = some edge) (valuation : Nat → Bool) :
    edge.value valuation = Description.literalValue (builder.value valuation) literal := by
  obtain ⟨signal, stored, rfl⟩ := signal?_eq_some_iff.mp found
  rw [Edge.value_complementIf, Description.literalValue, value_of_stored stored]

theorem Extends.signal? {names : List Nat} (extended : builder.Extends names next)
    {literal : Nat} {edge : Edge} (found : builder.signal? literal = some edge) :
    next.signal? literal = some edge := by
  obtain ⟨signal, stored, outcome⟩ := signal?_eq_some_iff.mp found
  exact signal?_eq_some_iff.mpr ⟨signal, extended.kept _ signal stored, outcome⟩

theorem Sound.solved_of_build {last : Builder} {names : List Nat} (sound : builder.Sound)
    {definition : Definition} (built : builder.build definition = .ok next)
    (later : next.Extends names last) {valuation : Nat → Bool}
    (satisfies : last.aig.Satisfies valuation) :
    definition.Solved (last.value valuation) := by
  have kept := (sound.extends_build built).trans later
  obtain ⟨left, right, leftFound, rightFound, _, rfl⟩ := sound.build_eq_ok_iff.mp built
  have own : last.signals[definition.target]? = some (builder.aig.conjoin left right).1 :=
    later.kept _ _ (by simp [bound])
  have conjoined := Aig.value_conjoin sound.intact.bookkeeping.toReferences
    (satisfies.of_grows later.grows)
  rw [Definition.Solved, value_of_stored own, ← value_signal? (kept.signal? leftFound),
    ← value_signal? (kept.signal? rightFound)]
  exact conjoined

theorem Sound.solved_of_builds {last : Builder} {names : List Nat} (sound : builder.Sound)
    {definitions : List Definition} (built : definitions.foldlM build builder = .ok next)
    (later : next.Extends names last) {valuation : Nat → Bool}
    (satisfies : last.aig.Satisfies valuation) :
    ∀ definition ∈ definitions, definition.Solved (last.value valuation) := by
  induction definitions generalizing builder with
  | nil => exact fun _ member => absurd member List.not_mem_nil
  | cons definition rest induction =>
      rw [List.foldlM_cons] at built
      obtain ⟨middle, first, others⟩ := bind_eq_ok.mp built
      have extended := sound.extends_build first
      rw [List.forall_mem_cons]
      exact ⟨sound.solved_of_build first ((extended.sound.extends_builds others).trans later)
        satisfies, induction extended.sound others⟩

theorem Sound.inputs_of_builds (sound : builder.Sound) {definitions : List Definition}
    (built : definitions.foldlM build builder = .ok next) :
    next.aig.inputs = builder.aig.inputs := by
  induction definitions generalizing builder with
  | nil =>
      cases built
      rfl
  | cons definition rest induction =>
      rw [List.foldlM_cons] at built
      obtain ⟨middle, first, others⟩ := bind_eq_ok.mp built
      have sooner := induction (sound.extends_build first).sound others
      obtain ⟨left, right, _, _, _, rfl⟩ := sound.build_eq_ok_iff.mp first
      exact sooner.trans (builder.aig.conjoin_interface left right).1

/-- Inputs are registered in their order, and each one is the signal of its
variable. -/
theorem Sound.registered_of_addInputs (sound : builder.Sound) {names : List Nat}
    (added : names.foldlM addInput builder = .ok next) :
    next.aig.inputs.size = builder.aig.inputs.size + names.length ∧
      ∀ (index name : Nat), names[index]? = some name →
        ∃ id, next.aig.inputs[builder.aig.inputs.size + index]? = some id ∧
          next.signals[name]? = some (.plain id) := by
  induction names generalizing builder with
  | nil =>
      cases added
      exact ⟨rfl, fun _ _ listed => by simp at listed⟩
  | cons name names induction =>
      rw [List.foldlM_cons] at added
      obtain ⟨middle, first, others⟩ := bind_eq_ok.mp added
      have extended := sound.extends_addInput first
      have later := extended.sound.extends_addInputs others
      obtain ⟨size, registered⟩ := induction extended.sound others
      obtain ⟨_, rfl⟩ := addInput_eq_ok_iff.mp first
      have grown : (builder.bound name builder.aig.addInput).aig.inputs =
          builder.aig.inputs.push builder.aig.size := rfl
      rw [grown, Array.size_push] at size registered
      refine ⟨by rw [size, List.length_cons]; omega, fun index other listed => ?_⟩
      cases index with
      | zero =>
          cases listed
          refine ⟨builder.aig.size, later.inputs _ _ ?_, later.kept _ _ ?_⟩
          · rw [grown, Nat.add_zero, Array.getElem?_push_size]
          · simp [bound, Aig.addInput]
      | succ index =>
          rw [← Nat.add_assoc, Nat.add_right_comm]
          exact registered index other listed

end Builder

namespace Description

variable {description : Description} {assignment : Nat → Bool}

/-- Valuations that agree on known variables and solve definitions in order
agree on all defined variables. -/
theorem solutions_agree {known : List Nat} {order : List Definition} (orders : Orders known order)
    {valuation other : Nat → Bool} (solved : ∀ definition ∈ order, definition.Solved valuation)
    (otherSolved : ∀ definition ∈ order, definition.Solved other)
    (agree : ∀ name ∈ known, other name = valuation name) :
    ∀ name ∈ known ++ order.map (·.target), other name = valuation name := by
  induction orders with
  | nil known => simpa using agree
  | @cons known definition rest fresh left right _ induction =>
      rw [List.forall_mem_cons] at solved otherSolved
      have literal : ∀ literal, literal / 2 ∈ known →
          literalValue other literal = literalValue valuation literal := by
        intro literal member
        rw [literalValue, agree _ member, literalValue]
      have own : other definition.target = valuation definition.target := by
        rw [otherSolved.1, literal _ left, literal _ right, solved.1]
      have extended := induction solved.2 otherSolved.2
        (List.forall_mem_cons.mpr ⟨own, agree⟩)
      intro name member
      refine extended name ?_
      simp only [List.mem_append, List.map_cons, List.mem_cons] at member ⊢
      tauto

theorem Solves.unique {order : List Definition}
    (permutation : description.definitions.Perm order)
    (orders : Orders (description.inputs ++ [0]) order) {valuation other : Nat → Bool}
    (solves : description.Solves assignment valuation)
    (otherSolves : description.Solves assignment other) {literal : Nat}
    (bound : description.Bound literal) :
    literalValue other literal = literalValue valuation literal := by
  have agree : ∀ name ∈ description.inputs ++ [0], other name = valuation name := by
    intro name member
    rcases List.mem_append.mp member with input | zero
    · obtain ⟨index, listed⟩ := List.mem_iff_getElem?.mp input
      rw [otherSolves.inputs index name listed, solves.inputs index name listed]
    · rw [List.mem_singleton.mp zero, otherSolves.constant, solves.constant]
  have same := solutions_agree orders
    (fun definition member => solves.definitions definition (permutation.mem_iff.mpr member))
    (fun definition member => otherSolves.definitions definition (permutation.mem_iff.mpr member))
    agree _ ((bound_iff permutation).mp bound)
  rw [literalValue, same, literalValue]

theorem solves_of_builds {order : List Definition} {first last : Builder}
    (permutation : description.definitions.Perm order)
    (added : description.inputs.foldlM Builder.addInput (Builder.start description.header) =
      .ok first)
    (run : order.foldlM Builder.build first = .ok last) {valuation : Nat → Bool}
    (satisfied : last.aig.Satisfies valuation) (assigns : first.aig.Assigns assignment valuation) :
    description.Solves assignment (last.value valuation) := by
  have started := Builder.sound_start description.header
  have inputs := started.extends_addInputs added
  have gates := inputs.sound.extends_builds run
  obtain ⟨_, registered⟩ := started.registered_of_addInputs added
  refine { constant := ?_, inputs := ?_, definitions := ?_ }
  · rw [Builder.value_of_stored gates.sound.constant, Edge.value, Edge.constant,
      satisfied.constant, Bool.xor_false]
  · intro index name listed
    obtain ⟨id, position, signal⟩ := registered index name listed
    have position : first.aig.inputs[index]? = some id := Nat.zero_add index ▸ position
    rw [Builder.value_of_stored (gates.kept name _ signal), Edge.value, Edge.plain,
      assigns index id position, Bool.xor_false]
  · intro definition member
    exact inputs.sound.solved_of_builds run gates.sound.extends_self satisfied definition
      (permutation.mem_iff.mp member)

/-- What is built from a description computes what it says. -/
theorem denotes_of_build {aig : Aig} (announced : description.Announced)
    (built : description.build = .ok aig) : description.Denotes aig := by
  obtain ⟨_, sequence, rearranged, orders⟩ := consistent_of_build announced built
  obtain ⟨order, first, last, permutation, added, run, finished⟩ := build_eq_ok built
  have started := Builder.sound_start description.header
  have inputs := started.extends_addInputs added
  have gates := inputs.sound.extends_builds run
  obtain ⟨size, _⟩ := started.registered_of_addInputs added
  obtain ⟨edges, found, rfl⟩ := gates.sound.finish_eq_ok_iff.mp finished
  have intact := gates.sound.intact_appendOutputs found
  have none : last.aig.outputs = #[] := gates.outputs.trans inputs.outputs
  have outputs : (edges.foldl Aig.appendOutput last.aig).outputs = edges.toArray := by
    rw [Aig.outputs_appendOutputs, none]
    simp
  have length : edges.length = description.outputs.length := by
    simpa using (congrArg List.length found).symm
  have ports : (edges.foldl Aig.appendOutput last.aig).inputs = first.aig.inputs := by
    rw [Aig.inputs_appendOutputs, inputs.sound.inputs_of_builds run]
  refine { inputs := ?_, outputs := by rw [outputs, List.size_toArray, length], solution := ?_ }
  · rw [ports, size]
    exact Nat.zero_add _
  · intro assignment
    obtain ⟨valuation, satisfies, assigns⟩ := Aig.exists_valuation
      intact.bookkeeping.toReferences intact.ports intact.acyclic assignment
    have grows : last.aig.Grows (edges.foldl Aig.appendOutput last.aig) := by
      intro id node stored
      rw [Aig.node?_appendOutputs, stored]
    have solves := solves_of_builds permutation added run (satisfies.of_grows grows)
      fun index id position => assigns index id (ports ▸ position)
    refine ⟨last.value valuation, solves, ?_, ?_⟩
    · intro other otherSolves literal bound
      exact solves.unique rearranged orders otherSolves bound
    · intro index literal output listed present value
      have signal : last.signal? literal = some output := by
        have same := congrArg (·[index]?) found
        rw [outputs, List.getElem?_toArray] at present
        simpa [List.getElem?_map, listed, present] using same
      rw [← Builder.value_signal? signal]
      exact Aig.edgeEvaluates_output_iff intact.bookkeeping.toReferences intact.ports
        intact.acyclic satisfies assigns present value

theorem Rearranges.solves {other : Description} (rearranges : description.Rearranges other)
    {valuation : Nat → Bool} (solves : other.Solves assignment valuation) :
    description.Solves assignment valuation := by
  refine { constant := solves.constant, inputs := ?_, definitions := ?_ }
  · intro index name listed
    rw [← rearranges.inputs] at listed
    exact solves.inputs index name listed
  · intro definition member
    exact solves.definitions definition (rearranges.definitions.mem_iff.mp member)

theorem Rearranges.consistent {other : Description} (rearranges : description.Rearranges other)
    (consistent : description.Consistent) : other.Consistent := by
  obtain ⟨maxVariable, inputs, outputs, definitions⟩ := rearranges
  have listed := fun definition => (definitions.mem_iff (a := definition)).mpr
  have defined : description.defined.Perm other.defined := by
    rw [Description.defined, Description.defined, inputs]
    exact (definitions.map _).append_left _
  have bound : ∀ literal, description.Bound literal → other.Bound literal :=
    fun literal => Or.imp_right defined.mem_iff.mp
  refine { enough := ?_, fits := maxVariable ▸ consistent.fits
           distinct := defined.nodup_iff.mp consistent.distinct, inRange := ?_, operands := ?_
           outputs := ?_, acyclic := ?_ }
  · rw [maxVariable, inputs, ← definitions.length_eq]
    exact consistent.enough
  · intro name member
    rw [maxVariable]
    exact consistent.inRange name (defined.mem_iff.mpr member)
  · intro definition member
    obtain ⟨left, right⟩ := consistent.operands definition (listed definition member)
    exact ⟨bound _ left, bound _ right⟩
  · intro literal member
    exact bound literal (consistent.outputs literal (outputs ▸ member))
  · intro name cycle
    refine consistent.acyclic name ?_
    refine Relation.TransGen.mono (fun target operand depends => ?_) _ _ cycle
    obtain ⟨definition, member, sides⟩ := depends
    exact ⟨definition, listed definition member, sides⟩

/-- Graphs of descriptions that differ in the order of the gates compute the
same functions. -/
theorem Rearranges.sameFunctions {other : Description} (rearranges : description.Rearranges other)
    (consistent : description.Consistent) {aig again : Aig} (denotes : description.Denotes aig)
    (otherDenotes : other.Denotes again) : aig.SameFunctions again := by
  refine { inputs := ?_, outputs := ?_, values := ?_ }
  · rw [denotes.inputs, otherDenotes.inputs, rearranges.inputs]
  · rw [denotes.outputs, otherDenotes.outputs, rearranges.outputs]
  · intro assignment index output output' present present' value
    obtain ⟨valuation, _, unique, evaluates⟩ := denotes.solution assignment
    obtain ⟨twin, solves, _, evaluates'⟩ := otherDenotes.solution assignment
    have inside : index < description.outputs.length :=
      denotes.outputs ▸ (Array.getElem?_eq_some_iff.mp present).1
    obtain ⟨literal, listed⟩ : ∃ literal, description.outputs[index]? = some literal :=
      ⟨_, List.getElem?_eq_getElem inside⟩
    have bound := consistent.outputs literal (List.mem_of_getElem? listed)
    rw [evaluates index literal output listed present,
      evaluates' index literal output' (rearranges.outputs ▸ listed) present',
      unique twin (rearranges.solves solves) literal bound]

end Description

theorem Describes.denotes {content : List UInt8} {description : Description}
    (describes : Describes content description) {aig : Aig} (read : readAscii content = .ok aig) :
    description.Consistent ∧ description.Denotes aig := by
  obtain ⟨found, parsed, built⟩ := readAscii_eq_ok_iff.mp read
  obtain ⟨other, announced⟩ := Description.read_eq_ok_iff.mp parsed
  obtain rfl := describes.unique other
  exact ⟨(description.consistent_of_build announced built).1,
    description.denotes_of_build announced built⟩

end Aiger

end AndInverter
