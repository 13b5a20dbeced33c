import AndInverter.Error

/-!
# Ways to fail

What is known of the failures of single operations carries over a chain of
operations, over the entries of a list and over a fold.
-/

namespace AndInverter

/-- An operation does not fail in any other way than the allowed ones. -/
def FailsOnly {Value : Type} (allowed : Failure → Prop) (outcome : Except Failure Value) :
    Prop :=
  ∀ failure, outcome = .error failure → allowed failure

namespace FailsOnly

variable {Value Result Entry State : Type} {allowed : Failure → Prop}

theorem ok (value : Value) : FailsOnly allowed (.ok value) := by
  intro failure failed
  cases failed

theorem error {failure : Failure} (permitted : allowed failure) :
    FailsOnly allowed (.error failure : Except Failure Value) := by
  intro other failed
  cases failed
  exact permitted

theorem bind {first : Except Failure Value} {next : Value → Except Failure Result}
    (head : FailsOnly allowed first)
    (rest : ∀ value, first = .ok value → FailsOnly allowed (next value)) :
    FailsOnly allowed (first >>= next) := by
  cases first with
  | error failure => exact error (head failure rfl)
  | ok value => exact rest value rfl

theorem forM {check : Entry → Except Failure Unit} {entries : List Entry}
    (each : ∀ entry ∈ entries, FailsOnly allowed (check entry)) :
    FailsOnly allowed (entries.forM check) := by
  induction entries with
  | nil => exact ok ()
  | cons entry entries induction =>
      rw [List.forall_mem_cons] at each
      exact each.1.bind fun _ _ => induction each.2

/-- A law of the states that each step needs and keeps carries a fold. -/
theorem foldlM {advance : State → Entry → Except Failure State} (law : State → Prop)
    (each : ∀ {state entry}, law state → FailsOnly allowed (advance state entry))
    (kept : ∀ {state entry next}, law state → advance state entry = .ok next → law next)
    {entries : List Entry} {state : State} (holds : law state) :
    FailsOnly allowed (entries.foldlM advance state) := by
  induction entries generalizing state with
  | nil => exact ok state
  | cons entry entries induction =>
      rw [List.foldlM_cons]
      exact (each holds).bind fun next advanced => induction (kept holds advanced)

end FailsOnly

end AndInverter
