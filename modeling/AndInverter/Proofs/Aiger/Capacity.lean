import AndInverter.Aiger.Capacity
import AndInverter.Proofs.Aig.Capacity
import AndInverter.Proofs.Aiger.Building

/-!
# Adding outputs in 32 bits

Adding outputs and counting them in words fails exactly if a counter
overflows, and that is a broken condition of the operation.  In all other
cases the outputs are added as without a bound, and the final check passes.
-/

namespace AndInverter

namespace Aiger.Builder

variable {builder next : Builder}

/-- Nothing overflows before the first output is added. -/
private theorem edges_ne_nil_of_full (fits : builder.aig.CountersFit) {edges : List Edge} {id : Nat}
    (full : Counter.limit ≤ builder.aig.outputRefs id + edges.countP (·.node == id)) :
    edges ≠ [] := by
  rintro rfl
  exact Nat.not_lt.mpr full (fits id)

theorem not_overflows_nil (fits : builder.aig.CountersFit) : ¬ builder.Overflows [] := by
  rintro ⟨edges, begins, id, full⟩
  have none : edges = [] := by simpa using begins
  exact edges_ne_nil_of_full fits full none

theorem not_overflows_of_undefined (fits : builder.aig.CountersFit) {literal : Nat}
    (undefined : builder.signal? literal = none) (literals : List Nat) :
    ¬ builder.Overflows (literal :: literals) := by
  rintro ⟨edges, begins, id, full⟩
  cases edges with
  | nil => exact edges_ne_nil_of_full fits full rfl
  | cons edge edges => simp [undefined] at begins

theorem overflows_cons_iff (fits : builder.aig.CountersFit) {literal : Nat} {edge : Edge}
    (found : builder.signal? literal = some edge) (live : builder.aig.isDead edge.node = false)
    (literals : List Nat) :
    builder.Overflows (literal :: literals) ↔
      { builder with aig := builder.aig.appendOutput edge }.Overflows literals := by
  have inside := Aig.lt_size_of_live live
  have counter : ∀ edges : List Edge, ∀ id,
      (builder.aig.appendOutput edge).outputRefs id + edges.countP (·.node == id) =
        builder.aig.outputRefs id + (edge :: edges).countP (·.node == id) := by
    intro edges id
    rw [Aig.outputRefs_appendOutput, List.countP_cons]
    by_cases own : edge.node = id
    · subst own
      simp only [inside, and_self, if_true, beq_self_eq_true]
      omega
    · simp [own]
  constructor
  · rintro ⟨edges, begins, id, full⟩
    cases edges with
    | nil => exact absurd rfl (edges_ne_nil_of_full fits full)
    | cons first edges =>
        rw [List.map_cons, List.map_cons, found, List.cons_prefix_cons, Option.some.injEq] at begins
        obtain ⟨rfl, begins⟩ := begins
        exact ⟨edges, begins, id, (counter edges id).symm ▸ full⟩
  · rintro ⟨edges, begins, id, full⟩
    refine ⟨edge :: edges, ?_, id, (counter edges id) ▸ full⟩
    rw [List.map_cons, List.map_cons, found, List.cons_prefix_cons]
    exact ⟨rfl, begins⟩

/-- Outputs are added as without a bound, or else a counter overflows. -/
theorem Sound.addOutputsCounted_cases (sound : builder.Sound) (fits : builder.aig.CountersFit)
    (literals : List Nat) :
    builder.Overflows literals ∧
        literals.foldlM addOutputCounted builder = .error .assertion ∨
      ¬ builder.Overflows literals ∧
        literals.foldlM addOutputCounted builder = literals.foldlM addOutput builder ∧
        ∀ next, literals.foldlM addOutput builder = .ok next → next.aig.CountersFit := by
  induction literals generalizing builder with
  | nil =>
      refine .inr ⟨not_overflows_nil fits, rfl, fun next added => ?_⟩
      cases added
      exact fits
  | cons literal literals induction =>
      rw [List.foldlM_cons, List.foldlM_cons]
      cases found : builder.signal? literal with
      | none =>
          refine .inr ⟨not_overflows_of_undefined fits found literals, ?_, ?_⟩
          · simp [addOutputCounted, addOutput, resolve, found, bind, Except.bind]
          · simp [addOutput, resolve, found, bind, Except.bind]
      | some edge =>
          have live := sound.live_signal? found
          have resolved := resolve_eq_ok_iff.mpr found
          have added := sound.addOutput_eq_ok_iff.mpr ⟨edge, found, rfl⟩
          rw [overflows_cons_iff fits found live, added]
          by_cases room : builder.aig.outputRefs edge.node + 1 < Counter.limit
          · have counted : builder.addOutputCounted literal =
                .ok { builder with aig := builder.aig.appendOutput edge } := by
              rw [addOutputCounted, resolved]
              show (builder.aig.addOutputCounted edge >>= _) = _
              rw [Aig.addOutputCounted_of_lt room, ← added, addOutput, resolved]
              rfl
            rw [counted]
            exact induction (sound.withOutput found) (fits.appendOutput room)
          · have full := Nat.le_of_not_lt room
            refine .inl ⟨⟨[], List.nil_prefix, edge.node, ?_⟩, ?_⟩
            · rw [Aig.outputRefs_appendOutput, if_pos ⟨rfl, Aig.lt_size_of_live live⟩]
              exact full
            · rw [addOutputCounted, resolved]
              show (builder.aig.addOutputCounted edge >>= _) >>= _ = _
              rw [Aig.addOutputCounted_of_le live full]
              rfl

theorem Sound.finishCounted_of_overflows (sound : builder.Sound)
    (fits : builder.aig.CountersFit) {literals : List Nat}
    (overflows : builder.Overflows literals) :
    builder.finishCounted literals = .error .assertion := by
  rcases sound.addOutputsCounted_cases fits literals with ⟨_, failed⟩ | ⟨room, _⟩
  · rw [finishCounted, failed]
    rfl
  · exact absurd overflows room

theorem Sound.finishCounted_eq_finish (sound : builder.Sound) (fits : builder.aig.CountersFit)
    {literals : List Nat} (room : ¬ builder.Overflows literals) :
    builder.finishCounted literals = builder.finish literals := by
  rcases sound.addOutputsCounted_cases fits literals with ⟨overflows, _⟩ | ⟨_, same, kept⟩
  · exact absurd overflows room
  · rw [finishCounted, finish, same]
    cases added : literals.foldlM addOutput builder with
    | error failure => rfl
    | ok last =>
        have lastFits := kept last added
        obtain ⟨edges, found, rfl⟩ := sound.addOutputs_eq_ok_iff.mp added
        have wellFormed := (sound.intact_appendOutputs found).wellFormed
        show (Aig.checkIntegrityCounted _ >>= _) = (Aig.checkIntegrity _ >>= _)
        rw [Aig.checkIntegrityCounted_eq_ok_iff.mpr ⟨wellFormed, lastFits⟩,
          wellFormed.checkIntegrity]

theorem Sound.countersFit_of_finish (sound : builder.Sound) (fits : builder.aig.CountersFit)
    {literals : List Nat} (room : ¬ builder.Overflows literals) {aig : Aig}
    (finished : builder.finish literals = .ok aig) : aig.CountersFit := by
  obtain ⟨edges, found, rfl⟩ := sound.finish_eq_ok_iff.mp finished
  rcases sound.addOutputsCounted_cases fits literals with ⟨overflows, _⟩ | ⟨_, _, kept⟩
  · exact absurd overflows room
  · exact kept _ (sound.addOutputs_eq_ok_iff.mpr ⟨edges, found, rfl⟩)

theorem Sound.countersFit_of_bare (sound : builder.Sound) (bare : builder.aig.outputs = #[]) :
    builder.aig.CountersFit := by
  intro id
  have unread := sound.intact.bookkeeping.outputRefs_le id
  rw [bare] at unread
  exact Nat.lt_of_le_of_lt unread (by decide)

theorem Sound.not_overflows_of_length (sound : builder.Sound)
    (bare : builder.aig.outputs = #[]) {outputs : List Nat}
    (few : outputs.length < Counter.limit) : ¬ builder.Overflows outputs := by
  rintro ⟨edges, begins, id, full⟩
  have unread : builder.aig.outputRefs id ≤ 0 := by
    simpa [bare] using sound.intact.bookkeeping.outputRefs_le id
  have shorter : edges.length ≤ outputs.length := by simpa using begins.length_le
  have counted : edges.countP (·.node == id) ≤ edges.length := List.countP_le_length
  omega

end Aiger.Builder

end AndInverter
