import AndInverter.Proofs.Aiger.Ordering
import AndInverter.Proofs.Aiger.Parsing

/-!
# Which descriptions can be built

A description can be built exactly if it is consistent.  Building needs an
order of the definitions, and an order exists exactly if no definition depends
on itself.
-/

namespace AndInverter

namespace Aiger

namespace Builder

theorem knows_start (header : Header) : (start header).Knows [0] := by
  intro name
  rw [start, Std.TreeMap.mem_insert, Std.LawfulEqCmp.compare_eq_iff_eq, List.mem_singleton]
  simp [eq_comm]

end Builder

namespace Description

variable {description : Description}

theorem bound_iff {order : List Definition} (permutation : description.definitions.Perm order)
    {literal : Nat} :
    description.Bound literal ↔
      literal / 2 ∈ (description.inputs ++ [0]) ++ order.map (·.target) := by
  have targets := (permutation.map (·.target)).mem_iff (a := literal / 2)
  simp only [Bound, defined, List.mem_append, List.mem_singleton, targets]
  tauto

/-- Building goes through the inputs, through the definitions in some order
and through the outputs. -/
theorem build_eq_ok {aig : Aig} (built : description.build = .ok aig) :
    ∃ (order : List Definition) (first last : Builder),
      description.definitions.Perm order ∧
      description.inputs.foldlM Builder.addInput (Builder.start description.header) = .ok first ∧
      order.foldlM Builder.build first = .ok last ∧
      last.finish description.outputs = .ok aig := by
  simp only [build, bind_eq_ok] at built
  obtain ⟨first, added, last, gates, finished⟩ := built
  obtain ⟨order, permutation, run⟩ := Builder.exists_order_of_addGates gates
  exact ⟨order, first, last, permutation, added, run, finished⟩

theorem consistent_of_build {aig : Aig} (announced : description.Announced)
    (built : description.build = .ok aig) :
    description.Consistent ∧
      ∃ order, description.definitions.Perm order ∧ Orders (description.inputs ++ [0]) order := by
  obtain ⟨order, first, last, permutation, added, run, finished⟩ := build_eq_ok built
  have started := Builder.sound_start description.header
  have knows := Builder.knows_start description.header
  obtain ⟨inputsNodup, inputsAdmitted⟩ :=
    (started.exists_addInputs_iff knows).mp ⟨first, added⟩
  have inputs := started.extends_addInputs added
  obtain ⟨orders, inRange⟩ :=
    (inputs.sound.exists_foldlM_build_iff (inputs.knows knows)).mp ⟨last, run⟩
  have gates := inputs.sound.extends_builds run
  have outputs := gates.sound.exists_finish_iff.mp ⟨aig, finished⟩
  have targets := permutation.map (·.target)
  obtain ⟨rank, ranked⟩ := orders.exists_rank
  have listed : ∀ {definition}, definition ∈ description.definitions → definition ∈ order :=
    permutation.mem_iff.mp
  refine ⟨?_, order, permutation, orders⟩
  refine { enough := announced.enough, fits := announced.fits, distinct := ?_, inRange := ?_
           operands := ?_, outputs := ?_, acyclic := ?_ }
  · refine List.nodup_append.mpr ⟨inputsNodup, targets.nodup_iff.mpr orders.nodup, ?_⟩
    rintro name input _ target rfl
    obtain ⟨definition, member, rfl⟩ := List.mem_map.mp target
    exact orders.fresh definition (listed member) (List.mem_append_left _ input)
  · intro name member
    rcases List.mem_append.mp member with input | target
    · exact (inputsAdmitted name input).2
    · obtain ⟨definition, own, rfl⟩ := List.mem_map.mp target
      exact (inRange definition (listed own)).trans_eq inputs.maxVariable
  · intro definition member
    rw [bound_iff permutation, bound_iff permutation]
    exact orders.operands definition (listed member)
  · intro literal member
    have known := (gates.knows (inputs.knows knows) _).mp (outputs literal member)
    rw [bound_iff permutation]
    exact List.mem_append.mpr (List.mem_append.mp known).symm
  · exact acyclic_of_ranked fun definition member => ranked definition (listed member)

end Description

end Aiger

end AndInverter
