import AndInverter.Aig.Integrity
import AndInverter.Proofs.Aig.Changes
import AndInverter.Proofs.Failures

/-!
# Faults that a check can report

A chain of checks fails only as its parts do, and a part reports a fault only
if its own law is broken.  So what a law rules out is read off from the checks
of that law alone: the check of a hashed store spares the fault of a gate that
is missing in the structural table.
-/

namespace AndInverter

def Spares {Value : Type} (fault : Fault) (outcome : Except Failure Value) : Prop :=
  outcome ≠ .error (.fault fault)

theorem FailsOnly.spares {Value : Type} {fault : Fault} {outcome : Except Failure Value}
    (fails : FailsOnly (· ≠ .fault fault) outcome) : Spares fault outcome := by
  intro reported
  exact fails _ reported rfl

variable {allowed : Failure → Prop}

theorem failsOnly_demand {condition : Bool} {fault : Fault}
    (permitted : condition = false → allowed (.fault fault)) :
    FailsOnly allowed (Aig.demand condition fault) := by
  cases condition with
  | true => exact .ok ()
  | false => exact .error (permitted rfl)

theorem failsOnly_topologicalSort {Store : Type} [Network Store] {network : Store}
    {roots : List Nat} (exhausted : allowed .exhausted) (assertion : allowed .assertion)
    (cycle : ∀ id, allowed (.fault (.cycle id))) :
    FailsOnly allowed (topologicalSort network roots) := by
  have fold : ∀ depth path (starts : List Nat) (listing : Listing),
      (∀ listing id, FailsOnly allowed (Listing.visit network depth path listing id)) →
      FailsOnly allowed (starts.foldlM (Listing.visit network depth path) listing) :=
    fun depth path starts listing each =>
      .foldlM (fun _ => True) (fun _ => each _ _) (fun _ _ => trivial) trivial
  have visit : ∀ depth path (listing : Listing) id,
      FailsOnly allowed (Listing.visit network depth path listing id) := by
    intro depth
    induction depth with
    | zero => exact fun _ _ _ => .error exhausted
    | succ depth induction =>
        intro path listing id
        rw [Listing.visit]
        split
        · exact .error assertion
        · split
          · exact .ok listing
          · split
            · exact .error (cycle id)
            · dsimp only
              split
              · exact .error assertion
              · exact (fold _ _ _ _ (induction _)).bind fun below _ => .ok _
  exact (fold _ _ _ _ (visit _ _)).bind fun listing _ => .ok _

namespace Aig

section Checks

variable {aig : Aig}
  (permits : ∀ fault, (∀ gate, fault ≠ .unhashedGate gate) → allowed (.fault fault))

include permits

theorem failsOnly_checkReads (edge : Edge) : FailsOnly allowed (aig.checkReads edge) :=
  failsOnly_demand fun _ => permits _ nofun

theorem failsOnly_checkInput (id : Nat) : FailsOnly allowed (aig.checkInput id) :=
  failsOnly_demand fun _ => permits _ nofun

theorem failsOnly_checkEntry (entry : Fanins × Nat) : FailsOnly allowed (aig.checkEntry entry) :=
  failsOnly_demand fun _ => permits _ nofun

private theorem failsOnly_checkFanin (gate : Nat) (edge : Edge) :
    FailsOnly allowed (aig.checkFanin gate edge) :=
  (failsOnly_checkReads permits edge).bind fun _ _ => failsOnly_demand fun _ => permits _ nofun

private theorem failsOnly_checkFanouts (id : Nat) (earlier later : List Nat) :
    FailsOnly allowed (aig.checkFanouts id earlier later) := by
  induction later generalizing earlier with
  | nil => exact .ok ()
  | cons fanout later induction =>
      rw [checkFanouts]
      refine .bind (failsOnly_demand fun _ => permits _ nofun) fun _ _ => ?_
      refine .bind (failsOnly_demand fun _ => permits _ nofun) fun _ _ => ?_
      exact induction _

theorem failsOnly_checkGate {gate : Nat} {fanins : Fanins}
    (unhashed : aig.table[fanins]? ≠ some gate → allowed (.fault (.unhashedGate gate))) :
    FailsOnly allowed (aig.checkGate gate fanins) := by
  refine .bind (failsOnly_demand fun _ => permits _ nofun) fun _ _ => ?_
  refine .bind (failsOnly_demand fun _ => permits _ nofun) fun _ _ => ?_
  refine .bind (failsOnly_demand fun missing => unhashed (by simpa using missing)) fun _ _ => ?_
  refine .bind (failsOnly_checkFanin permits gate _) fun _ _ => ?_
  exact failsOnly_checkFanin permits gate _

theorem failsOnly_checkSlot (unhashed : ∀ gate fanins, aig.gateFanins? gate = some fanins →
      aig.table[fanins]? ≠ some gate → allowed (.fault (.unhashedGate gate)))
    (position : Nat) : FailsOnly allowed (aig.checkSlot position) := by
  unfold checkSlot
  cases stored : aig.node? position with
  | none => exact .ok ()
  | some node =>
      refine .bind (failsOnly_demand fun _ => permits _ nofun) fun _ placed => ?_
      have own : node.id = position := by simpa using placed
      have fanouts : FailsOnly allowed (aig.checkFanouts position [] (aig.fanouts position)) :=
        failsOnly_checkFanouts permits position [] _
      cases node with
      | constant => exact fanouts
      | input id => exact .bind (failsOnly_demand fun _ => permits _ nofun) fun _ _ => fanouts
      | gate id fanins =>
          have same : id = position := own
          have present : aig.gateFanins? id = some fanins :=
            gateFanins?_eq_some_iff.mpr ⟨id, same ▸ stored⟩
          exact .bind (failsOnly_checkGate permits (unhashed id fanins present)) fun _ _ => fanouts

end Checks

theorem Hashed.spares_checkIntegrity {aig : Aig} (hashed : aig.Hashed) (gate : Nat) :
    Spares (.unhashedGate gate) aig.checkIntegrity := by
  have permits : ∀ fault : Fault, (∀ gate, fault ≠ .unhashedGate gate) →
      Failure.fault fault ≠ .fault (.unhashedGate gate) := by
    intro fault other same
    cases same
    exact other gate rfl
  have slots : ∀ position, FailsOnly (· ≠ .fault (.unhashedGate gate)) (aig.checkSlot position) :=
    failsOnly_checkSlot permits fun other fanins stored missing =>
      absurd (hashed other fanins stored) missing
  apply FailsOnly.spares
  refine .bind (.forM fun position _ => slots position) fun _ _ => ?_
  refine .bind (.forM fun id _ => failsOnly_checkInput permits id) fun _ _ => ?_
  refine .bind (.forM fun edge _ => failsOnly_checkReads permits edge) fun _ _ => ?_
  refine .bind (failsOnly_demand fun _ => permits _ nofun) fun _ _ => ?_
  refine .bind (.forM fun entry _ => failsOnly_checkEntry permits entry) fun _ _ => ?_
  refine .bind (failsOnly_topologicalSort nofun nofun nofun) fun _ _ => ?_
  exact .ok ()

end Aig

end AndInverter
