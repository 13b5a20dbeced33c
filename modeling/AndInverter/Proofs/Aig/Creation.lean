import AndInverter.Aig.Creation
import AndInverter.Proofs.Aig.Intact
import AndInverter.Proofs.Aig.Sessions
import AndInverter.Proofs.Aiger.Rebuilding

/-!
# Gates are created once

Every connective is a conjunction of its operands, read as they are or
complemented.  A conjunction is settled from its first creation on: it is
trivial, or the structural table leads to its gate, and no later creation
strikes an entry of the table.  So the same call finds the same signal for
ever.
-/

namespace AndInverter

namespace Connective

def operand (connective : Connective) (edge : Edge) : Edge :=
  match connective with
  | .and | .nand => edge
  | .or => edge.not

def result (connective : Connective) (edge : Edge) : Edge :=
  match connective with
  | .and => edge
  | .nand | .or => edge.not

private theorem node_operand (connective : Connective) (edge : Edge) :
    (connective.operand edge).node = edge.node := by
  cases connective <;> rfl

private theorem node_result (connective : Connective) (edge : Edge) :
    (connective.result edge).node = edge.node := by
  cases connective <;> rfl

private theorem live_operand (connective : Connective) {aig : Aig} {edge : Edge}
    (live : aig.isDead edge.node = false) : aig.isDead (connective.operand edge).node = false := by
  rwa [node_operand]

theorem value_result (connective : Connective) {valuation : Nat → Bool}
    {left right edge : Edge}
    (joined : edge.value valuation = ((connective.operand left).value valuation &&
      (connective.operand right).value valuation)) :
    (connective.result edge).value valuation =
      connective.value (left.value valuation) (right.value valuation) := by
  cases connective with
  | and => exact joined
  | nand => rw [result, Edge.value_not, joined]; rfl
  | or => simp [result, value, joined, operand]

theorem create_eq (connective : Connective) (aig : Aig) (left right : Edge) :
    connective.create aig left right = (do
      let (edge, next) ← aig.createAnd (connective.operand left) (connective.operand right)
      return (connective.result edge, next)) := by
  cases connective with
  | and =>
      have unchanged : ∀ outcome : Except Failure (Edge × Aig),
          outcome = (do let (edge, next) ← outcome; return (edge, next)) := by
        intro outcome
        cases outcome <;> rfl
      exact unchanged _
  | nand => rfl
  | or => rfl

end Connective

namespace Aig

variable {aig next later : Aig} {left right edge : Edge} {fanins : Fanins}

/-! ### Settled conjunctions -/

/-- A pair of fanins is trivial, or its gate is in the structural table. -/
def Settled (aig : Aig) (fanins : Fanins) (edge : Edge) : Prop :=
  fanins.trivial? = some edge ∨
    fanins.trivial? = none ∧ ∃ gate, aig.table[fanins]? = some gate ∧ edge = .plain gate

theorem Settled.conjoin_eq (settled : aig.Settled (.ordered left right) edge) :
    aig.conjoin left right = (edge, aig) := by
  rcases settled with reduced | ⟨irreducible, gate, found, rfl⟩
  · simp [conjoin, reduced]
  · simp [conjoin, irreducible, found]

theorem settled_conjoin (aig : Aig) (left right : Edge) :
    (aig.conjoin left right).2.Settled (.ordered left right) (aig.conjoin left right).1 := by
  cases reduced : (Fanins.ordered left right).trivial? with
  | some edge =>
      have settled : aig.Settled (.ordered left right) edge := .inl reduced
      rw [settled.conjoin_eq]
      exact settled
  | none =>
      cases found : aig.table[Fanins.ordered left right]? with
      | some gate =>
          have settled : aig.Settled (.ordered left right) (.plain gate) :=
            .inr ⟨reduced, gate, found, rfl⟩
          rw [settled.conjoin_eq]
          exact settled
      | none =>
          rw [conjoin_eq_addGate reduced found]
          exact .inr ⟨reduced, aig.size, by rw [getElem?_addGate, if_pos rfl], rfl⟩

/-- A gate that is created gets an entry of its own in the table. -/
theorem Settled.conjoin (settled : aig.Settled fanins edge) (left right : Edge) :
    (aig.conjoin left right).2.Settled fanins edge := by
  rcases aig.conjoin_cases left right with
    ⟨_, _, outcome⟩ | ⟨_, _, outcome⟩ | ⟨_, absent, outcome⟩
  · rwa [outcome]
  · rwa [outcome]
  · rw [outcome]
    refine settled.imp_right fun ⟨irreducible, gate, found, isGate⟩ =>
      ⟨irreducible, gate, ?_, isGate⟩
    have other : Fanins.ordered left right ≠ fanins := by
      rintro rfl
      rw [absent] at found
      cases found
    rw [getElem?_addGate, if_neg other, found]

theorem Creates.exists_conjoin (creates : aig.Creates next) :
    ∃ left right, next = (aig.conjoin left right).2 := by
  have joins : ∀ {left right edge}, aig.createAnd left right = .ok (edge, next) →
      ∃ left right, next = (aig.conjoin left right).2 := by
    intro left right edge created
    exact ⟨left, right, by rw [(createAnd_eq created).2.2]⟩
  cases creates with
  | create created =>
      rw [Connective.create_eq] at created
      obtain ⟨⟨edge, store⟩, joined, result⟩ := bind_eq_ok.mp created
      cases result
      exact joins joined
  | newAnd created =>
      obtain ⟨_, _, created⟩ := bind_eq_ok.mp created
      obtain ⟨_, _, created⟩ := bind_eq_ok.mp created
      exact joins created

theorem settled_and_grows_of_creates (creates : Relation.ReflTransGen Creates aig later)
    (settled : aig.Settled fanins edge) : later.Settled fanins edge ∧ aig.Grows later := by
  induction creates with
  | refl => exact ⟨settled, fun _ _ stored => stored⟩
  | tail _ last induction =>
      obtain ⟨left, right, rfl⟩ := last.exists_conjoin
      exact ⟨induction.1.conjoin left right, induction.2.trans (conjoin_grows _ left right)⟩

/-! ### One creation -/

theorem Grows.node?_of_live (grows : aig.Grows next) {id : Nat}
    (live : aig.isDead id = false) : next.node? id = aig.node? id := by
  obtain ⟨node, stored⟩ := isDead_eq_false_iff.mp live
  rw [stored, grows id node stored]

/-- Nodes that are kept are kept with their functions. -/
theorem Grows.evaluates_iff (grows : aig.Grows next) (inputs : next.inputs = aig.inputs)
    (references : aig.References) {id : Nat} (live : aig.isDead id = false)
    {assignment : Nat → Bool} {value : Bool} :
    next.Evaluates assignment id value ↔ aig.Evaluates assignment id value := by
  constructor
  · intro evaluates
    induction evaluates with
    | constant stored => exact .constant (grows.node?_of_live live ▸ stored)
    | input stored registered =>
        exact .input (grows.node?_of_live live ▸ stored) (inputs ▸ registered)
    | @gate id fanins first second stored _ _ left right =>
        have former : aig.gateFanins? id = some fanins := by
          rw [← stored, Aig.gateFanins?, Aig.gateFanins?, grows.node?_of_live live]
        obtain ⟨firstLive, secondLive⟩ := fanins_live_of_stored references former
        exact .gate former (left firstLive) (right secondLive)
  · intro evaluates
    clear live
    induction evaluates with
    | constant stored => exact .constant (grows _ _ stored)
    | input stored registered => exact .input (grows _ _ stored) (inputs ▸ registered)
    | gate stored _ _ left right => exact .gate (grows.gateFanins? stored) left right

theorem gateAdded_addGate (hashed : aig.Hashed)
    (irreducible : (Fanins.ordered left right).trivial? = none)
    (absent : aig.table[Fanins.ordered left right]? = none)
    (leftLive : aig.isDead left.node = false) (rightLive : aig.isDead right.node = false) :
    aig.GateAdded (.ordered left right) (aig.addGate (.ordered left right)).2 := by
  obtain ⟨firstLive, secondLive⟩ := live_ordered leftLive rightLive
  have normal := Fanins.isNormal_ordered irreducible
  refine { size := size_addGate _ _, gate := ?_, irreducible := irreducible, fresh := ?_
           nodes := ?_, fanouts := ?_, outputRefs := ?_, inputs := rfl
           outputs := outputs_addGate _ _ }
  · rw [node?_addGate, if_pos rfl]
  · intro gate stored
    rw [hashed gate _ stored] at absent
    cases absent
  · intro id inside
    rw [node?_addGate, if_neg (Nat.ne_of_lt inside)]
  · intro id inside
    rw [fanouts_addGate aig normal firstLive secondLive, if_neg (Nat.ne_of_lt inside)]
  · intro id inside
    rw [outputRefs_addGate, if_neg (Nat.ne_of_lt inside)]

theorem conjoin_growth (intact : aig.Intact) (leftLive : aig.isDead left.node = false)
    (rightLive : aig.isDead right.node = false) :
    (aig.conjoin left right).2 = aig ∨
      ∃ fanins, aig.GateAdded fanins (aig.conjoin left right).2 := by
  rcases aig.conjoin_cases left right with
    ⟨_, _, outcome⟩ | ⟨_, _, outcome⟩ | ⟨irreducible, absent, outcome⟩
  · exact .inl (by rw [outcome])
  · exact .inl (by rw [outcome])
  · rw [outcome]
    exact .inr ⟨_, gateAdded_addGate intact.hashed irreducible absent leftLive rightLive⟩

/-- Under a valuation that satisfies the store and extends the assignment,
each live signal has the value that it has in the valuation. -/
theorem Intact.hasValue (intact : aig.Intact) {assignment valuation : Nat → Bool}
    (satisfies : aig.Satisfies valuation) (assigns : aig.Assigns assignment valuation)
    (live : aig.isDead edge.node = false) :
    aig.HasValue assignment edge (edge.value valuation) := by
  intro other
  rw [edgeEvaluates_iff intact.bookkeeping.toReferences intact.ports intact.acyclic satisfies
    assigns live, eq_comm]

theorem Intact.hasValue_conjoin (intact : aig.Intact) (connective : Connective)
    (leftLive : aig.isDead left.node = false) (rightLive : aig.isDead right.node = false)
    (joined : aig.conjoin (connective.operand left) (connective.operand right) = (edge, next))
    (assignment : Nat → Bool) :
    ∃ first second, aig.HasValue assignment left first ∧ aig.HasValue assignment right second ∧
      next.HasValue assignment (connective.result edge) (connective.value first second) := by
  have leftJoined := connective.live_operand leftLive
  have rightJoined := connective.live_operand rightLive
  have nextIntact := intact.conjoin leftJoined rightJoined
  have live := intact.live_conjoin leftJoined rightJoined
  have grows := conjoin_grows aig (connective.operand left) (connective.operand right)
  have inputs := (conjoin_interface aig (connective.operand left)
    (connective.operand right)).1
  obtain ⟨valuation, satisfies, assigns⟩ := exists_valuation
    nextIntact.bookkeeping.toReferences nextIntact.ports nextIntact.acyclic assignment
  have value := connective.value_result
    (value_conjoin intact.bookkeeping.toReferences satisfies)
  rw [joined] at nextIntact live grows inputs satisfies assigns value
  have former := satisfies.of_grows grows
  have formerAssigns : aig.Assigns assignment valuation :=
    fun index id registered => assigns index id (inputs ▸ registered)
  refine ⟨left.value valuation, right.value valuation,
    intact.hasValue former formerAssigns leftLive,
    intact.hasValue former formerAssigns rightLive, ?_⟩
  rw [← value]
  exact nextIntact.hasValue satisfies assigns (by rwa [Connective.node_result])

theorem create_of_live (connective : Connective) (leftLive : aig.isDead left.node = false)
    (rightLive : aig.isDead right.node = false) :
    connective.create aig left right = .ok
      (connective.result (aig.conjoin (connective.operand left) (connective.operand right)).1,
        (aig.conjoin (connective.operand left) (connective.operand right)).2) := by
  rw [Connective.create_eq, createAnd_of_live (connective.live_operand leftLive)
    (connective.live_operand rightLive)]
  rfl

/-- A settled connective is found again, for either order of its operands. -/
theorem Settled.create_eq {connective : Connective}
    (settled : aig.Settled (.ordered (connective.operand left) (connective.operand right)) edge)
    (leftLive : aig.isDead left.node = false) (rightLive : aig.isDead right.node = false) :
    connective.create aig left right = .ok (connective.result edge, aig) ∧
      connective.create aig right left = .ok (connective.result edge, aig) := by
  constructor
  · rw [create_of_live connective leftLive rightLive, settled.conjoin_eq]
  · rw [Fanins.ordered_comm] at settled
    rw [create_of_live connective rightLive leftLive, settled.conjoin_eq]

/-- In a store that operations lead to and that passes its check, a gate can
be created from any two live signals.  The call returns a signal with the
value of the connective, adds one gate at most and keeps everything else, and
the store passes its check again.  From then on the call returns this signal
and adds nothing. -/
theorem create_canonical (connective : Connective) (reachable : aig.Reachable)
    (checked : aig.checkIntegrity = .ok ()) (leftLive : aig.isDead left.node = false)
    (rightLive : aig.isDead right.node = false) :
    ∃ edge next, connective.create aig left right = .ok (edge, next) ∧
      Creation connective aig left right edge next := by
  have intact := reachable.intact checked
  have leftJoined := connective.live_operand leftLive
  have rightJoined := connective.live_operand rightLive
  obtain ⟨edge, next, joined⟩ : ∃ edge next,
      aig.conjoin (connective.operand left) (connective.operand right) = (edge, next) :=
    ⟨_, _, rfl⟩
  have created : connective.create aig left right = .ok (connective.result edge, next) := by
    rw [create_of_live connective leftLive rightLive, joined]
  have grows := conjoin_grows aig (connective.operand left) (connective.operand right)
  have inputs := (conjoin_interface aig (connective.operand left)
    (connective.operand right)).1
  have growth := conjoin_growth intact leftJoined rightJoined
  have nextIntact := intact.conjoin leftJoined rightJoined
  have settled := settled_conjoin aig (connective.operand left) (connective.operand right)
  rw [joined] at grows inputs growth nextIntact settled
  refine ⟨_, next, created, ?_⟩
  refine { value := intact.hasValue_conjoin connective leftLive rightLive joined
           functions := ?_, growth := growth
           checked := nextIntact.wellFormed.checkIntegrity, canonical := ?_ }
  · intro id live assignment value
    exact grows.evaluates_iff inputs intact.bookkeeping.toReferences live
  · intro later creates
    obtain ⟨found, growsLater⟩ := settled_and_grows_of_creates creates settled
    exact found.create_eq (growsLater.live (grows.live leftLive))
      (growsLater.live (grows.live rightLive))

/-- A conjunction of an input and a gate, negated, in a store from which a
gate was reclaimed: it is found again after two further creations. -/
theorem create_canonical_reclaimed : ∃ (aig next later : Aig) (edge : Edge),
    aig.Reachable ∧ aig.checkIntegrity = .ok () ∧ aig.isDead 4 = true ∧
      aig.isDead 2 = false ∧ aig.isDead 5 = false ∧
      Connective.nand.create aig (.plain 2) (.plain 5) = .ok (edge, next) ∧
      aig.GateAdded (.ordered (.plain 2) (.plain 5)) next ∧
      Relation.ReflTransGen Creates next later ∧ later.size = next.size + 2 ∧
      Connective.nand.create later (.plain 5) (.plain 2) = .ok (edge, later) := by
  have checked : (do
      let ended ← Aig.empty.session [.addInput, .addInput, .addInput,
        .createAnd (.plain 1) (.plain 2), .addOutput (.plain 4),
        .createAnd (.plain 1) (.plain 3), .substitute 5 4 (.plain 5)]
      ended.1.checkIntegrity
      let nand ← Connective.nand.create ended.1 (.plain 2) (.plain 5)
      let or ← Connective.or.create nand.2 nand.1 (.plain 1)
      let and ← or.2.newAnd or.1 (.plain 2)
      return decide (ended.1.isDead 4 = true ∧ ended.1.isDead 2 = false ∧
        ended.1.isDead 5 = false ∧ nand.2.size = ended.1.size + 1 ∧
        nand.2.gateFanins? ended.1.size = some (Fanins.ordered (.plain 2) (.plain 5)) ∧
        and.2.size = nand.2.size + 2)) = .ok true := by
    decide +kernel
  obtain ⟨⟨aig, changes⟩, ended, checked⟩ := bind_eq_ok.mp checked
  obtain ⟨_, passed, checked⟩ := bind_eq_ok.mp checked
  obtain ⟨⟨edge, next⟩, created, checked⟩ := bind_eq_ok.mp checked
  obtain ⟨⟨edge', middle⟩, created', checked⟩ := bind_eq_ok.mp checked
  obtain ⟨⟨edge'', later⟩, created'', results⟩ := bind_eq_ok.mp checked
  obtain ⟨dead, leftLive, rightLive, added, stored, more⟩ :=
    of_decide_eq_true (Except.ok.inj results)
  have reachable : aig.Reachable := evolves_of_session ended
  obtain ⟨_, _, returned, creation⟩ := create_canonical .nand reachable passed
    (show aig.isDead (Edge.plain 2).node = false from leftLive)
    (show aig.isDead (Edge.plain 5).node = false from rightLive)
  cases created.symm.trans returned
  have creates : Relation.ReflTransGen Creates next later :=
    (Relation.ReflTransGen.single (.create created')).tail (.newAnd created'')
  refine ⟨aig, next, later, edge, reachable, passed, dead, leftLive, rightLive, created, ?_,
    creates, more, (creation.canonical later creates).2⟩
  rcases creation.growth with rfl | ⟨fanins, gateAdded⟩
  · exact absurd added (Nat.ne_of_lt (Nat.lt_succ_self _))
  · rw [gateFanins?, gateAdded.gate] at stored
    cases stored
    exact gateAdded

end Aig

end AndInverter
