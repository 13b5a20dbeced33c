import AndInverter.Proofs.Aig.Histories
import AndInverter.Proofs.Traversal.Topological

/-!
# Sessions

A session performs operations one after the other and collects the changes
that their substitutions report.  Sessions lead exactly to the graphs that
histories lead to, and they can be run.
-/

namespace AndInverter

inductive Operation where
  | addInput
  | addOutput (edge : Edge)
  | createAnd (left right : Edge)
  | cleanup
  | substitute (fuel old : Nat) (new : Edge)
  | optimize (fuel : Nat) (parameters : Parameters)

namespace Aig

/-- The graph after an operation, and what substitutions have changed. -/
def perform (aig : Aig) : Operation → Except Failure (Aig × List Change)
  | .addInput => .ok (aig.addInput.2, [])
  | .addOutput edge => do
    let next ← aig.addOutput edge
    return (next, [])
  | .createAnd left right => do
    let (_, next) ← aig.createAnd left right
    return (next, [])
  | .cleanup => .ok (aig.cleanup, [])
  | .substitute fuel old new => aig.substitute fuel old new
  | .optimize fuel parameters => do
    let run ← Rewriting.optimize fuel parameters aig
    return (run.view.network, changesOf run.records)

/-- The graph after a list of operations, and what substitutions have
changed. -/
def session (aig : Aig) : List Operation → Except Failure (Aig × List Change)
  | [] => .ok (aig, [])
  | operation :: operations => do
    let (middle, changes) ← aig.perform operation
    let (next, later) ← middle.session operations
    return (next, changes ++ later)

theorem perform_edits {aig next : Aig} {operation : Operation} {changes : List Change}
    (performed : aig.perform operation = .ok (next, changes)) :
    Edits (Substituted changes) aig next := by
  cases operation with
  | addInput =>
      cases performed
      exact .single (.addInput aig)
  | addOutput edge =>
      obtain ⟨store, added, result⟩ := bind_eq_ok.mp performed
      cases result
      exact addOutput_edits added
  | createAnd left right =>
      obtain ⟨⟨edge, store⟩, created, result⟩ := bind_eq_ok.mp performed
      cases result
      exact createAnd_edits created
  | cleanup =>
      cases performed
      exact cleanup_edits aig
  | substitute fuel old new => exact (substitute_drains performed).edits
  | optimize fuel parameters =>
      obtain ⟨run, optimized, result⟩ := bind_eq_ok.mp performed
      cases result
      exact Rewriting.optimize_edits optimized

theorem session_edits {aig next : Aig} {operations : List Operation} {changes : List Change}
    (ended : aig.session operations = .ok (next, changes)) :
    Edits (Substituted changes) aig next := by
  induction operations generalizing aig changes with
  | nil =>
      cases ended
      exact .refl
  | cons operation operations induction =>
      rw [session] at ended
      obtain ⟨⟨middle, first⟩, performed, rest⟩ := bind_eq_ok.mp ended
      obtain ⟨⟨last, later⟩, continued, result⟩ := bind_eq_ok.mp rest
      cases result
      have before := (perform_edits performed).mono fun _ =>
        Substituted.mono (List.subset_append_left first later)
      have after := (induction continued).mono fun _ =>
        Substituted.mono (List.subset_append_right first later)
      exact before.trans after

/-! ### Sessions and histories -/

/-- Whether a sort shows that the replacing edge does not depend on the
replaced node. -/
def isIndependent (aig : Aig) (substitution : Substitution) : Bool :=
  match topologicalSort aig [substitution.new.node] with
  | .ok order => !order.contains substitution.old
  | .error _ => false

theorem independent_of_isIndependent {aig : Aig} {substitution : Substitution}
    (shown : aig.isIndependent substitution = true) : aig.independent substitution := by
  unfold isIndependent at shown
  split at shown
  · rename_i order sorted
    intro reaches
    have member : substitution.old ∈ order := by
      apply ((ordered_of_topologicalSort sorted).2 substitution.old).mpr
      exact ⟨substitution.new.node, List.mem_cons_self, reaches⟩
    simp [member] at shown
  · cases shown

def isSafeOperation (aig : Aig) : Operation → Bool
  | .substitute _ old new => aig.isIndependent { old := old, new := new }
  | _ => true

/-- Whether no substitution of a session could close a cycle. -/
def isSafeSession (aig : Aig) : List Operation → Bool
  | [] => true
  | operation :: operations =>
    aig.isSafeOperation operation &&
      match aig.perform operation with
      | .ok (next, _) => next.isSafeSession operations
      | .error _ => true

theorem step_of_perform {allowed : Aig → Substitution → Prop} {aig next : Aig}
    {operation : Operation} {changes : List Change}
    (permitted : ∀ fuel old new, operation = .substitute fuel old new →
      allowed aig { old := old, new := new })
    (performed : aig.perform operation = .ok (next, changes)) : Step allowed aig next := by
  cases operation with
  | addInput =>
      cases performed
      exact .addInput aig
  | addOutput edge =>
      obtain ⟨store, added, result⟩ := bind_eq_ok.mp performed
      cases result
      exact .addOutput added
  | createAnd left right =>
      obtain ⟨⟨edge, store⟩, created, result⟩ := bind_eq_ok.mp performed
      cases result
      exact .createAnd created
  | cleanup =>
      cases performed
      exact .cleanup aig
  | substitute fuel old new => exact .substitute (permitted fuel old new rfl) performed
  | optimize fuel parameters =>
      obtain ⟨run, optimized, result⟩ := bind_eq_ok.mp performed
      cases result
      exact .optimize optimized

theorem perform_of_step {allowed : Aig → Substitution → Prop} {aig next : Aig}
    (step : Step allowed aig next) :
    ∃ operation changes, aig.perform operation = .ok (next, changes) := by
  cases step with
  | addInput => exact ⟨.addInput, [], rfl⟩
  | @addOutput _ edge added => exact ⟨.addOutput edge, [], by simp [perform, added]⟩
  | @createAnd _ left right edge created =>
      exact ⟨.createAnd left right, [], by simp [perform, created]⟩
  | cleanup => exact ⟨.cleanup, [], rfl⟩
  | @substitute _ fuel substitution changes _ substituted =>
      exact ⟨.substitute fuel substitution.old substitution.new, changes, substituted⟩
  | @optimize fuel parameters run optimized =>
      exact ⟨.optimize fuel parameters, changesOf run.records, by simp [perform, optimized]⟩

theorem session_append {aig middle next : Aig} {operations more : List Operation}
    {changes later : List Change} (first : aig.session operations = .ok (middle, changes))
    (second : middle.session more = .ok (next, later)) :
    aig.session (operations ++ more) = .ok (next, changes ++ later) := by
  induction operations generalizing aig changes with
  | nil =>
      cases first
      exact second
  | cons operation operations induction =>
      rw [session] at first
      obtain ⟨⟨store, early⟩, performed, rest⟩ := bind_eq_ok.mp first
      obtain ⟨⟨last, late⟩, continued, result⟩ := bind_eq_ok.mp rest
      cases result
      rw [List.cons_append, session, performed]
      apply bind_eq_ok.mpr
      refine ⟨(store, early), rfl, bind_eq_ok.mpr ⟨_, induction continued, ?_⟩⟩
      rw [List.append_assoc]
      rfl

/-- Sessions lead wherever histories lead, whatever substitutions these may
hold. -/
theorem session_of_steps {allowed : Aig → Substitution → Prop} {aig next : Aig}
    (steps : Relation.ReflTransGen (Step allowed) aig next) :
    ∃ operations changes, aig.session operations = .ok (next, changes) := by
  induction steps with
  | refl => exact ⟨[], [], rfl⟩
  | tail _ step induction =>
      obtain ⟨operations, changes, ended⟩ := induction
      obtain ⟨operation, later, performed⟩ := perform_of_step step
      refine ⟨operations ++ [operation], changes ++ (later ++ []), session_append ended ?_⟩
      simp [session, performed]

theorem evolves_of_session {aig next : Aig} {operations : List Operation}
    {changes : List Change} (ended : aig.session operations = .ok (next, changes)) :
    Evolves aig next := by
  induction operations generalizing aig changes with
  | nil =>
      cases ended
      exact .refl
  | cons operation operations induction =>
      rw [session] at ended
      obtain ⟨⟨middle, first⟩, performed, rest⟩ := bind_eq_ok.mp ended
      obtain ⟨⟨last, later⟩, continued, result⟩ := bind_eq_ok.mp rest
      cases result
      exact .head (step_of_perform (fun _ _ _ _ => trivial) performed) (induction continued)

theorem evolves_iff_session {aig next : Aig} :
    Evolves aig next ↔ ∃ operations changes, aig.session operations = .ok (next, changes) := by
  constructor
  · intro evolves
    exact session_of_steps evolves
  · intro led
    obtain ⟨operations, changes, ended⟩ := led
    exact evolves_of_session ended

theorem safeSteps_of_session {aig next : Aig} {operations : List Operation}
    {changes : List Change} (ended : aig.session operations = .ok (next, changes))
    (safe : aig.isSafeSession operations = true) :
    Relation.ReflTransGen (Step independent) aig next := by
  induction operations generalizing aig changes with
  | nil =>
      cases ended
      exact .refl
  | cons operation operations induction =>
      rw [session] at ended
      obtain ⟨⟨middle, first⟩, performed, rest⟩ := bind_eq_ok.mp ended
      obtain ⟨⟨last, later⟩, continued, result⟩ := bind_eq_ok.mp rest
      cases result
      rw [isSafeSession, performed, Bool.and_eq_true] at safe
      refine .head (step_of_perform ?_ performed) (induction continued safe.2)
      rintro fuel old new rfl
      exact independent_of_isIndependent safe.1

/-! ### Reference records -/

/-- Whatever operations were made, rewriting and substitutions that close a
cycle included, all records of the store agree with its nodes, and a dead
node has no fanouts left. -/
theorem reachable_bookkeeping {aig : Aig} (reachable : aig.Reachable) :
    aig.Bookkeeping ∧ ∀ id, aig.isDead id = true → aig.fanouts id = [] := by
  have bookkeeping := reachable.bookkeeping
  refine ⟨bookkeeping, fun id dead => ?_⟩
  apply List.eq_nil_iff_forall_not_mem.mpr
  intro gate member
  have reads := ((bookkeeping.fanouts id).mem_iff gate).mp member
  have live := bookkeeping.fanins_live gate id reads
  rw [dead] at live
  cases live

/-- A substitution that makes a gate read itself leaves true records too. -/
theorem reachable_bookkeeping_loop : ∃ aig : Aig, aig.Reachable ∧ aig.GateReads 4 4 ∧
    4 ∈ aig.fanouts 4 ∧ aig.isDead 3 = true ∧ aig.fanouts 3 = [] := by
  have checked : (do
      let ended ← Aig.empty.session [.addInput, .addInput,
        .createAnd (.plain 1) (.plain 2), .createAnd (.plain 3) (.plain 1),
        .addOutput (.plain 4), .substitute 5 3 (.plain 4)]
      return ended.1.isDead 3 && decide (ended.1.gateFanins? 4 =
        some (Fanins.mk (.plain 1) (.plain 4)))) = .ok true := by
    decide +kernel
  obtain ⟨⟨aig, log⟩, ended, results⟩ := bind_eq_ok.mp checked
  simp only [pure_eq_ok, Bool.and_eq_true, decide_eq_true_eq] at results
  obtain ⟨dead, stored⟩ := results
  have reachable : aig.Reachable := evolves_of_session ended
  have reads : aig.GateReads 4 4 := ⟨_, stored, .inr rfl⟩
  obtain ⟨bookkeeping, unread⟩ := reachable_bookkeeping reachable
  exact ⟨aig, reachable, reads, ((bookkeeping.fanouts 4).mem_iff 4).mpr reads, dead,
    unread 3 dead⟩

end Aig

end AndInverter
