import AndInverter.Aig.Construction
import Mathlib.Logic.Relation

/-!
# Elementary changes

Everything that the operations do to a store is made of six elementary
changes, each with the conditions under which it is made.  A law that each of
them keeps is kept by every operation.
-/

namespace AndInverter

def Change.redirected? : Change → Option Nat
  | .substituting old _ => some old
  | .reclaiming _ => none

def Substituted (changes : List Change) (old : Nat) : Prop :=
  ∃ new, .substituting old new ∈ changes

theorem Substituted.mono {changes more : List Change} (subset : changes ⊆ more) {old : Nat}
    (substituted : Substituted changes old) : Substituted more old := by
  obtain ⟨new, member⟩ := substituted
  exact ⟨new, subset member⟩

namespace Fanins

theorem isNormal_iff {fanins : Fanins} :
    fanins.isNormal = true ↔
      fanins.first < fanins.second ∧ fanins.first.node ≠ fanins.second.node ∧
        fanins.first.node ≠ 0 := by
  simp [isNormal, and_assoc]

theorem mem_ordered_iff {left right edge : Edge} :
    edge = (ordered left right).first ∨ edge = (ordered left right).second ↔
      edge = left ∨ edge = right := by
  unfold ordered
  split
  · exact or_comm
  · exact Iff.rfl

/-- A pair reduces without a gate if it reads one node twice or the constant
first. -/
theorem trivial?_eq_none_iff {fanins : Fanins} :
    fanins.trivial? = none ↔
      fanins.first.node ≠ fanins.second.node ∧ fanins.first.node ≠ 0 := by
  obtain ⟨⟨node, complement⟩, ⟨node', complement'⟩⟩ := fanins
  by_cases same : node = node'
  · subst same
    simp only [trivial?, ne_eq, not_true_eq_false, false_and, iff_false]
    cases complement <;> cases complement' <;> simp [Edge.isComplementOf] <;> split <;> simp
  · cases complement <;>
      simp [trivial?, Edge.isComplementOf, Edge.isFalse, Edge.isTrue, same]

private theorem not_second_lt_first_ordered (left right : Edge) :
    ¬ (ordered left right).second < (ordered left right).first := by
  unfold ordered
  split
  · rename_i less
    exact Nat.lt_asymm less
  · assumption

theorem isNormal_ordered {left right : Edge}
    (irreducible : (ordered left right).trivial? = none) :
    (ordered left right).isNormal = true := by
  obtain ⟨different, notConstant⟩ := trivial?_eq_none_iff.mp irreducible
  refine isNormal_iff.mpr ⟨?_, different, notConstant⟩
  have sorted := not_second_lt_first_ordered left right
  have distinct : (ordered left right).first.literal ≠ (ordered left right).second.literal := by
    intro equality
    exact different (congrArg Edge.node (Edge.literal_inj.mp equality))
  rw [Edge.lt_iff] at sorted ⊢
  omega

theorem node_ordered_iff {left right : Edge} {id : Nat} :
    ((ordered left right).first.node = id ∨ (ordered left right).second.node = id) ↔
      left.node = id ∨ right.node = id := by
  unfold ordered
  split
  · exact or_comm
  · exact Iff.rfl

theorem replace?_cases {before after : Fanins} {substitution : Substitution}
    (replaced : before.replace? substitution = some after) :
    ∃ kept read : Edge, read.node = substitution.old ∧
      (kept = before.second ∧ read = before.first ∨
        kept = before.first ∧ read = before.second) ∧
      after = .ordered kept (substitution.new.complementIf read.complement) := by
  unfold replace? at replaced
  split at replaced
  · rename_i isFirst
    exact ⟨before.second, before.first, isFirst, .inl ⟨rfl, rfl⟩,
      (Option.some.inj replaced).symm⟩
  · split at replaced
    · rename_i isSecond
      exact ⟨before.first, before.second, isSecond, .inr ⟨rfl, rfl⟩,
        (Option.some.inj replaced).symm⟩
    · cases replaced

theorem replace?_eq_none_iff {fanins : Fanins} {substitution : Substitution} :
    fanins.replace? substitution = none ↔
      fanins.first.node ≠ substitution.old ∧ fanins.second.node ≠ substitution.old := by
  unfold replace?
  split
  · rename_i isFirst
    simp [isFirst]
  · rename_i notFirst
    split
    · rename_i isSecond
      simp [isSecond]
    · rename_i notSecond
      simp [notFirst, notSecond]

end Fanins

namespace Aig

def appendOutput (aig : Aig) (edge : Edge) : Aig :=
  { aig.adjustRefs edge.node (· + 1) with outputs := aig.outputs.push edge }

/-- One elementary change of a store.  Which nodes may have their uses
redirected is a parameter. -/
inductive Edit (olds : Nat → Prop) : Aig → Aig → Prop
  | addInput (aig : Aig) : Edit olds aig aig.addInput.2
  | addOutput {aig : Aig} {edge : Edge} (live : aig.isDead edge.node = false) :
      Edit olds aig (aig.appendOutput edge)
  | addGate {aig : Aig} {fanins : Fanins} (normal : fanins.isNormal = true)
      (first : aig.isDead fanins.first.node = false)
      (second : aig.isDead fanins.second.node = false)
      (absent : aig.table[fanins]? = none) : Edit olds aig (aig.addGate fanins).2
  | redirect {aig : Aig} {substitution : Substitution} (listed : olds substitution.old)
      (applies : aig.applies substitution = true) :
      Edit olds aig (aig.redirectOutputs substitution)
  | rewire {aig : Aig} {gate : Nat} {before after : Fanins} {substitution : Substitution}
      (listed : olds substitution.old) (applies : aig.applies substitution = true)
      (stored : aig.gateFanins? gate = some before)
      (replaced : before.replace? substitution = some after)
      (unmerged : aig.merged? substitution.old after = none) :
      Edit olds aig (aig.setFanins gate before after substitution)
  | remove {aig : Aig} {id : Nat} {fanins : Fanins}
      (dangling : aig.dangling? id = some fanins) : Edit olds aig (aig.removeGate id fanins)

/-- Elementary changes lead from one store to the other. -/
def Edits (olds : Nat → Prop) : Aig → Aig → Prop :=
  Relation.ReflTransGen (Edit olds)

variable {olds : Nat → Prop}

/-- A law that elementary changes keep is kept by any number of them. -/
theorem Edits.keep (law : Aig → Prop) {aig next : Aig} (edits : Edits olds aig next)
    (kept : ∀ {aig next : Aig}, Edit olds aig next → law aig → law next)
    (holds : law aig) : law next := by
  induction edits with
  | refl => exact holds
  | tail _ edit induction => exact kept edit induction

theorem Edit.mono {more : Nat → Prop} {aig next : Aig} (wider : ∀ old, olds old → more old)
    (edit : Edit olds aig next) : Edit more aig next := by
  cases edit with
  | addInput => exact .addInput aig
  | addOutput live => exact .addOutput live
  | addGate normal first second absent => exact .addGate normal first second absent
  | redirect listed applies => exact .redirect (wider _ listed) applies
  | rewire listed applies stored replaced unmerged =>
      exact .rewire (wider _ listed) applies stored replaced unmerged
  | remove dangling => exact .remove dangling

theorem Edits.mono {more : Nat → Prop} {aig next : Aig} (wider : ∀ old, olds old → more old)
    (edits : Edits olds aig next) : Edits more aig next :=
  edits.keep (Edits more aig) (fun edit former => former.tail (edit.mono wider)) .refl

theorem applies_iff {aig : Aig} {substitution : Substitution} :
    aig.applies substitution = true ↔
      substitution.new.node ≠ substitution.old ∧ aig.isDead substitution.old = false ∧
        aig.isDead substitution.new.node = false := by
  simp [applies, and_assoc]

@[simp] theorem isDead_redirectOutputs (aig : Aig) (substitution : Substitution) (id : Nat) :
    (aig.redirectOutputs substitution).isDead id = aig.isDead id := by
  simp only [isDead, redirectOutputs, node?_adjustRefs]
  rfl

/-- A gate that becomes a substitution of its own takes the place of what its
new fanins reduce to, or of another gate that has them. -/
theorem merged?_eq_some_iff {aig : Aig} {old : Nat} {fanins : Fanins} {edge : Edge} :
    aig.merged? old fanins = some edge ↔
      fanins.trivial? = some edge ∨
        fanins.trivial? = none ∧
          ∃ gate, aig.table[fanins]? = some gate ∧ gate ≠ old ∧ edge = .plain gate := by
  cases reduced : fanins.trivial? with
  | some reduct => simp [merged?, reduced]
  | none =>
      cases found : aig.table[fanins]? with
      | none => simp [merged?, reduced, found]
      | some gate =>
          by_cases same : gate = old
          · simp [merged?, reduced, found, same]
          · simp only [merged?, reduced, found, same, if_false, Option.some.injEq,
              reduceCtorEq, false_or, true_and]
            constructor
            · rintro rfl
              exact ⟨gate, rfl, same, rfl⟩
            · rintro ⟨_, rfl, _, rfl⟩
              rfl

theorem merged?_eq_none_iff {aig : Aig} {old : Nat} {fanins : Fanins} :
    aig.merged? old fanins = none ↔
      fanins.trivial? = none ∧
        ∀ gate, aig.table[fanins]? = some gate → gate = old := by
  cases reduced : fanins.trivial? with
  | some reduct => simp [merged?, reduced]
  | none =>
      cases found : aig.table[fanins]? with
      | none => simp [merged?, reduced, found]
      | some gate =>
          by_cases same : gate = old
          · simp [merged?, reduced, found, same]
          · simp [merged?, reduced, found, same]

theorem lt_size_of_gateFanins? {aig : Aig} {id : Nat} {fanins : Fanins}
    (stored : aig.gateFanins? id = some fanins) : id < aig.size := by
  obtain ⟨node, present, _⟩ := Option.bind_eq_some_iff.mp stored
  exact lt_size_of_node? present

theorem isDead_of_gateFanins? {aig : Aig} {id : Nat} {fanins : Fanins}
    (stored : aig.gateFanins? id = some fanins) : aig.isDead id = false := by
  obtain ⟨node, present, _⟩ := Option.bind_eq_some_iff.mp stored
  simp [isDead, present]

@[simp] theorem node?_hash (aig : Aig) (fanins : Fanins) (gate id : Nat) :
    (aig.hash fanins gate).node? id = aig.node? id :=
  rfl

theorem node?_setFanins (aig : Aig) {gate : Nat} {before : Fanins} (after : Fanins)
    (substitution : Substitution) (stored : aig.gateFanins? gate = some before) (id : Nat) :
    (aig.setFanins gate before after substitution).node? id =
      if gate = id then some (.gate gate after) else aig.node? id := by
  have inside := lt_size_of_gateFanins? stored
  simp only [setFanins, node?_addFanout, node?_dropFanout, node?_hash, node?_setNode,
    size_unhash, node?_unhash]
  by_cases same : gate = id
  · subst same
    simp [inside]
  · simp [same]

theorem isDead_setFanins {aig : Aig} {gate : Nat} {before : Fanins} (after : Fanins)
    (substitution : Substitution) (stored : aig.gateFanins? gate = some before) (id : Nat) :
    (aig.setFanins gate before after substitution).isDead id = aig.isDead id := by
  rw [isDead, node?_setFanins aig after substitution stored]
  split
  · rename_i same
    rw [← same, isDead_of_gateFanins? stored]
    rfl
  · rfl

/-- A conjunction reduces to a signal, is found in the table, or is a new
gate. -/
theorem conjoin_cases (aig : Aig) (left right : Edge) :
    (∃ edge, (Fanins.ordered left right).trivial? = some edge ∧
      aig.conjoin left right = (edge, aig)) ∨
    (∃ gate, aig.table[Fanins.ordered left right]? = some gate ∧
      aig.conjoin left right = (.plain gate, aig)) ∨
    ((Fanins.ordered left right).trivial? = none ∧
      aig.table[Fanins.ordered left right]? = none ∧
      aig.conjoin left right = aig.addGate (Fanins.ordered left right)) := by
  cases reduced : (Fanins.ordered left right).trivial? with
  | some edge => exact .inl ⟨edge, rfl, by simp [conjoin, reduced]⟩
  | none =>
      cases found : aig.table[Fanins.ordered left right]? with
      | some gate => exact .inr (.inl ⟨gate, rfl, by simp [conjoin, reduced, found]⟩)
      | none => exact .inr (.inr ⟨rfl, rfl, by simp [conjoin, reduced, found]⟩)

theorem live_ordered {aig : Aig} {left right : Edge} (leftLive : aig.isDead left.node = false)
    (rightLive : aig.isDead right.node = false) :
    aig.isDead (Fanins.ordered left right).first.node = false ∧
      aig.isDead (Fanins.ordered left right).second.node = false := by
  have live : ∀ edge, edge = (Fanins.ordered left right).first ∨
      edge = (Fanins.ordered left right).second → aig.isDead edge.node = false := by
    intro edge member
    rcases Fanins.mem_ordered_iff.mp member with rfl | rfl
    · exact leftLive
    · exact rightLive
  exact ⟨live _ (.inl rfl), live _ (.inr rfl)⟩

theorem conjoin_edits {aig : Aig} {left right : Edge} (leftLive : aig.isDead left.node = false)
    (rightLive : aig.isDead right.node = false) : Edits olds aig (aig.conjoin left right).2 := by
  obtain ⟨firstLive, secondLive⟩ := live_ordered leftLive rightLive
  rcases aig.conjoin_cases left right with
    ⟨edge, _, outcome⟩ | ⟨gate, _, outcome⟩ | ⟨irreducible, absent, outcome⟩
  · rw [outcome]
    exact .refl
  · rw [outcome]
    exact .refl
  · rw [outcome]
    exact .single (.addGate (Fanins.isNormal_ordered irreducible) firstLive secondLive absent)

theorem createAnd_eq {aig next : Aig} {left right edge : Edge}
    (created : aig.createAnd left right = .ok (edge, next)) :
    aig.isDead left.node = false ∧ aig.isDead right.node = false ∧
      aig.conjoin left right = (edge, next) := by
  unfold createAnd at created
  split at created
  · cases created
  · rename_i live
    simp only [Bool.or_eq_true, not_or, Bool.not_eq_true] at live
    exact ⟨live.1, live.2, Except.ok.inj created⟩

theorem createAnd_edits {aig next : Aig} {left right edge : Edge}
    (created : aig.createAnd left right = .ok (edge, next)) : Edits olds aig next := by
  obtain ⟨leftLive, rightLive, outcome⟩ := createAnd_eq created
  have edits : Edits olds aig (aig.conjoin left right).2 := conjoin_edits leftLive rightLive
  rwa [outcome] at edits

theorem addOutput_edits {aig next : Aig} {edge : Edge}
    (added : aig.addOutput edge = .ok next) : Edits olds aig next := by
  unfold addOutput checkEdge at added
  cases live : aig.isDead edge.node with
  | true => simp [live] at added
  | false =>
      simp only [live, bind_eq_ok, pure_eq_ok] at added
      obtain ⟨_, _, rfl⟩ := added
      exact .single (.addOutput live)

/-- What taking out a dangling gate keeps, reclaiming keeps. -/
theorem reclaim_keep (law : Aig → Prop)
    (remove : ∀ {aig id fanins}, aig.dangling? id = some fanins →
      law aig → law (aig.removeGate id fanins))
    {aig : Aig} {stack : List Nat} (holds : law aig) : law (aig.reclaim stack).1 := by
  induction aig, stack using reclaim.induct with
  | case1 aig =>
      rw [reclaim]
      exact holds
  | case2 aig id stack dangling induction =>
      rw [reclaim]
      split
      · exact induction holds
      · simp_all
  | case3 aig id stack fanins dangling induction =>
      rw [reclaim]
      split
      · simp_all
      · rename_i found present
        cases present.symm.trans dangling
        exact induction (remove dangling holds)

theorem reclaim_edits (aig : Aig) (stack : List Nat) : Edits olds aig (aig.reclaim stack).1 :=
  reclaim_keep (Edits olds aig) (fun dangling edits => edits.tail (.remove dangling)) .refl

/-- What taking out a dangling gate keeps, cleanup keeps. -/
theorem cleanup_keep (law : Aig → Prop)
    (remove : ∀ {aig id fanins}, aig.dangling? id = some fanins →
      law aig → law (aig.removeGate id fanins))
    {aig : Aig} (holds : law aig) : law aig.cleanup := by
  unfold cleanup
  generalize List.range' 1 (aig.size - 1) = ids
  induction ids generalizing aig with
  | nil => exact holds
  | cons id ids induction => exact induction (reclaim_keep law remove holds)

theorem cleanup_edits (aig : Aig) : Edits olds aig aig.cleanup :=
  cleanup_keep (Edits olds aig) (fun dangling edits => edits.tail (.remove dangling)) .refl

end Aig

end AndInverter
