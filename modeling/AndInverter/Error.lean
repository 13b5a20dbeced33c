import AndInverter.Aiger.ParseError
import AndInverter.Fault

/-!
# Errors and failures

An error is an answer to data that an operation cannot accept.  A failure is
any way of having no result: an error, a condition of the caller's contract
that does not hold, or a step limit that was reached.
-/

namespace AndInverter

def maxTableInputs : Nat :=
  16

inductive Error where
  /-- An edge reads a node that is not in the network. -/
  | nodeDoesNotExist (node : Nat)
  | tooManyInputs (inputs : Nat)
  | inputsMismatch (left right : Nat)
  | outputsMismatch (left right : Nat)
  | invalidState (fault : Fault)
  | parse (cause : ParseError)
  deriving DecidableEq

namespace Error

def message : Error → String
  | .nodeDoesNotExist node => s!"node with id={node} does not exist"
  | .tooManyInputs inputs =>
      s!"exhaustive simulation supports at most {maxTableInputs} inputs, got {inputs}"
  | .inputsMismatch left right => s!"AIGs have different numbers of inputs: {left} vs {right}"
  | .outputsMismatch left right => s!"AIGs have different numbers of outputs: {left} vs {right}"
  | .invalidState fault =>
      s!"the AIG has reached an invalid state - this should not happen - error: {fault.message}"
  | .parse cause => cause.message

end Error

inductive Failure where
  | error (cause : Error)
  /-- The caller broke a condition of the operation's contract. -/
  | assertion
  /-- The step limit was reached before the operation had ended. -/
  | exhausted
  deriving DecidableEq

namespace Failure

abbrev parse (cause : ParseError) : Failure :=
  .error (.parse cause)

abbrev fault (cause : Fault) : Failure :=
  .error (.invalidState cause)

end Failure

@[simp] theorem bind_eq_ok {Value Result : Type} {first : Except Failure Value}
    {next : Value → Except Failure Result} {result : Result} :
    (first >>= next) = .ok result ↔
      ∃ value, first = .ok value ∧ next value = .ok result := by
  cases first with
  | error failure => simp [bind, Except.bind]
  | ok value => simp [bind, Except.bind]

@[simp] theorem map_eq_ok {Value Result : Type} {change : Value → Result}
    {first : Except Failure Value} {result : Result} :
    (change <$> first) = .ok result ↔ ∃ value, first = .ok value ∧ change value = result := by
  cases first with
  | error failure => simp [Functor.map, Except.map]
  | ok value => simp [Functor.map, Except.map]

@[simp] theorem pure_eq_ok {Value : Type} {value result : Value} :
    (pure value : Except Failure Value) = .ok result ↔ value = result := by
  simp [pure, Except.pure]

theorem mapM_eq_ok {Entry Datum : Type} {read : Datum → Except Failure Entry}
    {entry : Datum → Entry} {data : List Datum}
    (each : ∀ datum ∈ data, read datum = .ok (entry datum)) :
    data.mapM read = .ok (data.map entry) := by
  induction data with
  | nil => rfl
  | cons datum data induction =>
      rw [List.forall_mem_cons] at each
      rw [List.mapM_cons, each.1, induction each.2]
      rfl

theorem eq_map_of_mapM {Entry Datum : Type} {read : Datum → Except Failure Entry}
    {entry : Datum → Entry} (determined : ∀ datum result, read datum = .ok result →
      result = entry datum) {data : List Datum} {entries : List Entry}
    (read : data.mapM read = .ok entries) : entries = data.map entry := by
  induction data generalizing entries with
  | nil =>
      cases read
      rfl
  | cons datum data induction =>
      rw [List.mapM_cons] at read
      simp only [bind_eq_ok, pure_eq_ok] at read
      obtain ⟨first, own, others, following, rfl⟩ := read
      rw [determined datum first own, induction following, List.map_cons]

/-- The condition of a contract: nothing happens if it holds. -/
def require (condition : Bool) : Except Failure Unit :=
  if condition then .ok () else .error .assertion

@[simp] theorem require_eq_ok {condition : Bool} {done : Unit} :
    require condition = .ok done ↔ condition = true := by
  cases condition <;> simp [require]

end AndInverter
