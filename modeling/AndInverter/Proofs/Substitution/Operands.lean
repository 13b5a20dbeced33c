import AndInverter.Proofs.Substitution.Completion
import Mathlib.Data.Set.Image
import Mathlib.Data.Set.Function

/-!
# Operands during a substitution

What one substitution does to the nodes that a gate reads: the gate reads what
it read before, or the new node in place of the old one, or it is gone.  A
queued gate is to be replaced by a node that follows it: one of its operands,
a node that reads nothing, or a gate that reads the same.  A replacement that
does not depend on the node closes no cycle.
-/

namespace AndInverter

def Substitution.move (substitution : Substitution) (id : Nat) : Nat :=
  if id = substitution.old then substitution.new.node else id

namespace Substitution

variable {substitution : Substitution}

@[simp] theorem move_old : substitution.move substitution.old = substitution.new.node :=
  if_pos rfl

theorem move_of_ne {id : Nat} (different : id ≠ substitution.old) : substitution.move id = id :=
  if_neg different

theorem move_ne_old (different : substitution.new.node ≠ substitution.old) (id : Nat) :
    substitution.move id ≠ substitution.old := by
  unfold move
  split
  · exact different
  · assumption

theorem image_move_eq {nodes : Set Nat} (absent : substitution.old ∉ nodes) :
    substitution.move '' nodes = nodes :=
  Set.EqOn.image_eq_self fun _ member => move_of_ne (ne_of_mem_of_not_mem member absent)

theorem image_move_image (different : substitution.new.node ≠ substitution.old)
    (nodes : Set Nat) : substitution.move '' (substitution.move '' nodes) =
      substitution.move '' nodes := by
  apply image_move_eq
  intro moved
  obtain ⟨node, _, isOld⟩ := moved
  exact move_ne_old different node isOld

private theorem image_move_pair {kept : Nat} (different : kept ≠ substitution.old) :
    substitution.move '' {kept, substitution.old} = {kept, substitution.new.node} := by
  rw [Set.image_pair, move_of_ne different, move_old]

end Substitution

theorem Fanins.eq_of_trivial? {fanins : Fanins} {edge : Edge}
    (reduced : fanins.trivial? = some edge) :
    edge = .constant false ∨ edge = fanins.second := by
  unfold trivial? at reduced
  split at reduced
  · cases reduced
    exact .inl rfl
  · split at reduced
    · cases reduced
      exact .inr rfl
    · cases reduced

theorem Fanins.node_of_trivial? {fanins : Fanins} {edge : Edge}
    (reduced : fanins.trivial? = some edge) : edge.node = 0 ∨ edge.node = fanins.second.node := by
  rcases eq_of_trivial? reduced with rfl | rfl
  · exact .inl rfl
  · exact .inr rfl

namespace Aig

def operands (aig : Aig) (gate : Nat) : Set Nat :=
  { id | aig.GateReads gate id }

variable {aig : Aig} {substitution : Substitution}

theorem mem_operands {gate id : Nat} : id ∈ aig.operands gate ↔ aig.GateReads gate id :=
  Iff.rfl

private theorem operands_congr {next : Aig} {gate : Nat}
    (same : next.gateFanins? gate = aig.gateFanins? gate) :
    next.operands gate = aig.operands gate :=
  Set.ext fun id => gateReads_of_gateFanins? id same

private theorem mem_pair_iff {first second id : Nat} :
    id ∈ ({first, second} : Set Nat) ↔ first = id ∨ second = id := by
  rw [Set.mem_insert_iff, Set.mem_singleton_iff]
  exact or_congr eq_comm eq_comm

theorem operands_eq_pair {gate : Nat} {first second : Nat}
    (reads : ∀ id, aig.GateReads gate id ↔ first = id ∨ second = id) :
    aig.operands gate = {first, second} :=
  Set.ext fun id => (reads id).trans mem_pair_iff.symm

theorem isGate_eq_false_iff {id : Nat} : aig.isGate id = false ↔ aig.operands id = ∅ := by
  constructor
  · intro noGate
    apply Set.eq_empty_of_forall_notMem
    intro read reads
    obtain ⟨fanins, stored, _⟩ := mem_operands.mp reads
    rw [isGate, stored] at noGate
    cases noGate
  · intro nothing
    rw [← Bool.not_eq_true]
    intro isGate
    obtain ⟨fanins, stored⟩ := isGate_iff.mp isGate
    have reads : fanins.first.node ∈ aig.operands id := ⟨fanins, stored, .inl rfl⟩
    rw [nothing] at reads
    exact reads

theorem operands_setFanins (references : aig.References) {gate : Nat} {before after : Fanins}
    (stored : aig.gateFanins? gate = some before)
    (replaced : before.replace? substitution = some after)
    (unmerged : aig.merged? substitution.old after = none) :
    substitution.old ∈ aig.operands gate ∧
      (aig.setFanins gate before after substitution).operands gate =
        substitution.move '' aig.operands gate := by
  obtain ⟨kept, notOld, _, readsBefore, readsAfter⟩ :=
    gateReads_setFanins references stored replaced unmerged
  refine ⟨mem_operands.mpr ((readsBefore _).mpr (.inr rfl)), ?_⟩
  rw [operands_eq_pair readsBefore, operands_eq_pair readsAfter,
    Substitution.image_move_pair notOld]

/-- A node takes the place of a gate that reads the images of the given
operands: it is one of them, reads nothing, or reads just them. -/
def Follows (aig : Aig) (move : Nat → Nat) (targets : Set Nat) (id : Nat) : Prop :=
  id ∈ targets ∨ aig.operands id = ∅ ∨ move '' aig.operands id = targets

theorem Follows.of_moved {next : Aig} {targets : Set Nat} {id : Nat}
    (follows : aig.Follows substitution.move targets id)
    (different : substitution.new.node ≠ substitution.old)
    (moved : next.operands id = aig.operands id ∨
      next.operands id = substitution.move '' aig.operands id) :
    next.Follows substitution.move targets id := by
  rcases follows with target | nothing | same
  · exact .inl target
  · refine .inr (.inl ?_)
    rcases moved with kept | images
    · rw [kept, nothing]
    · rw [images, nothing, Set.image_empty]
  · refine .inr (.inr ?_)
    rcases moved with kept | images
    · rw [kept, same]
    · rw [images, Substitution.image_move_image different, same]

/-- Each gate reads what it read before, or the new node in place of the old
one.  A gate that is queued is to be replaced by what follows it. -/
structure Moves (substitution : Substitution) (aig store : Aig)
    (instead : List Substitution) : Prop where
  bookkeeping : store.Bookkeeping
  operands : ∀ gate, store.operands gate = aig.operands gate ∨
    store.operands gate = substitution.move '' aig.operands gate
  queued : ∀ entry ∈ instead, substitution.old ∈ aig.operands entry.old ∧
    store.Follows substitution.move (substitution.move '' aig.operands entry.old) entry.new.node

theorem Moves.eq_of_reads {store : Aig} {instead : List Substitution} {gate : Nat}
    (moves : Moves substitution aig store instead)
    (different : substitution.new.node ≠ substitution.old)
    (reads : substitution.old ∈ store.operands gate) :
    store.operands gate = aig.operands gate := by
  rcases moves.operands gate with same | moved
  · exact same
  · rw [moved] at reads
    obtain ⟨read, _, isOld⟩ := reads
    exact absurd isOld (Substitution.move_ne_old different read)

theorem Moves.setFanins {store : Aig} {instead : List Substitution} {gate : Nat}
    {before after : Fanins} (moves : Moves substitution aig store instead)
    (applies : store.applies substitution = true)
    (stored : store.gateFanins? gate = some before)
    (replaced : before.replace? substitution = some after)
    (unmerged : store.merged? substitution.old after = none) :
    Moves substitution aig (store.setFanins gate before after substitution) instead := by
  have different := (applies_iff.mp applies).1
  obtain ⟨readsOld, moved⟩ :=
    operands_setFanins moves.bookkeeping.toReferences stored replaced unmerged
  have here : ∀ other, (store.setFanins gate before after substitution).operands other =
        store.operands other ∨
      (store.setFanins gate before after substitution).operands other =
        substitution.move '' store.operands other := by
    intro other
    by_cases own : other = gate
    · subst own
      exact .inr moved
    · exact .inl (operands_congr ((gateFanins?_setFanins after substitution stored other).trans
        (if_neg (Ne.symm own))))
  constructor
  · exact bookkeeping_setFanins moves.bookkeeping applies stored replaced unmerged
  · intro other
    rcases here other with same | again <;> rcases moves.operands other with kept | already
    · exact .inl (same.trans kept)
    · exact .inr (same.trans already)
    · exact .inr (by rw [again, kept])
    · exact .inr (by rw [again, already, Substitution.image_move_image different])
  · intro entry member
    obtain ⟨reads, follows⟩ := moves.queued entry member
    exact ⟨reads, follows.of_moved different (here _)⟩

theorem follows_of_merged? (references : aig.References) (constant : aig.isGate 0 = false)
    {gate : Nat} {before after : Fanins} {edge : Edge}
    (stored : aig.gateFanins? gate = some before)
    (replaced : before.replace? substitution = some after)
    (merged : aig.merged? substitution.old after = some edge)
    (different : substitution.new.node ≠ substitution.old) :
    substitution.old ∈ aig.operands gate ∧
      aig.Follows substitution.move (substitution.move '' aig.operands gate) edge.node := by
  obtain ⟨_, apart, _⟩ := references.normal gate before stored
  obtain ⟨kept, read, readsOld, sides, rfl⟩ := Fanins.replace?_cases replaced
  have reads : ∀ id, aig.GateReads gate id ↔ kept.node = id ∨ substitution.old = id := by
    intro id
    rw [gateReads_iff stored, ← readsOld]
    rcases sides with ⟨rfl, rfl⟩ | ⟨rfl, rfl⟩
    · exact or_comm
    · exact Iff.rfl
  have notOld : kept.node ≠ substitution.old := by
    rw [← readsOld]
    rcases sides with ⟨rfl, rfl⟩ | ⟨rfl, rfl⟩
    · exact apart.symm
    · exact apart
  refine ⟨mem_operands.mpr ((reads _).mpr (.inr rfl)), ?_⟩
  rw [operands_eq_pair reads, Substitution.image_move_pair notOld]
  have mem_after : ∀ id, ((Fanins.ordered kept (substitution.new.complementIf
      read.complement)).first.node = id ∨ (Fanins.ordered kept (substitution.new.complementIf
      read.complement)).second.node = id) ↔ id ∈ ({kept.node, substitution.new.node} : Set Nat) :=
    fun id => Fanins.node_ordered_iff.trans mem_pair_iff.symm
  rcases merged?_eq_some_iff.mp merged with reduced | ⟨_, other, found, _, rfl⟩
  · rcases Fanins.node_of_trivial? reduced with zero | second
    · rw [zero]
      exact .inr (.inl (isGate_eq_false_iff.mp constant))
    · exact .inl ((mem_after _).mp (.inr second.symm))
  · have same : aig.operands other = {kept.node, substitution.new.node} := by
      ext id
      rw [mem_operands, gateReads_iff (references.table_sound _ other found)]
      exact mem_after id
    right
    right
    rw [Edge.plain, same]
    apply Substitution.image_move_eq
    intro member
    rcases mem_pair_iff.mp member with isKept | isNew
    · exact notOld isKept
    · exact different isNew

theorem Moves.queue {store : Aig} {instead : List Substitution} {gate : Nat}
    {before after : Fanins} {edge : Edge} (moves : Moves substitution aig store instead)
    (constant : aig.isGate 0 = false) (different : substitution.new.node ≠ substitution.old)
    (stored : store.gateFanins? gate = some before)
    (replaced : before.replace? substitution = some after)
    (merged : store.merged? substitution.old after = some edge) :
    Moves substitution aig store ({ old := gate, new := edge } :: instead) := by
  have noGate : store.isGate 0 = false := by
    rw [isGate_eq_false_iff] at constant ⊢
    rcases moves.operands 0 with same | moved
    · rw [same, constant]
    · rw [moved, constant, Set.image_empty]
  obtain ⟨reads, follows⟩ := follows_of_merged? moves.bookkeeping.toReferences noGate stored
    replaced merged different
  refine { moves with queued := ?_ }
  intro entry member
  rcases List.mem_cons.mp member with rfl | earlier
  · rw [← moves.eq_of_reads different reads]
    exact ⟨reads, follows⟩
  · exact moves.queued entry earlier

theorem redirected_moves (bookkeeping : aig.Bookkeeping) (constant : aig.isGate 0 = false)
    (applies : aig.applies substitution = true) :
    Moves substitution aig (aig.redirected substitution) (aig.queued substitution) :=
  redirected_keep (Moves substitution aig)
    (fun applies stored replaced merged moves =>
      moves.queue constant (applies_iff.mp applies).1 stored replaced merged)
    (fun applies stored replaced unmerged moves =>
      moves.setFanins applies stored replaced unmerged)
    applies
    { bookkeeping := bookkeeping_redirectOutputs bookkeeping applies
      operands := fun _ => .inl (operands_congr (gateFanins?_redirectOutputs ..))
      queued := fun _ member => absurd member List.not_mem_nil }

theorem operands_reclaim (aig : Aig) (stack : List Nat) (gate : Nat) :
    (aig.reclaim stack).1.operands gate = aig.operands gate ∨
      (aig.reclaim stack).1.operands gate = ∅ := by
  cases live : (aig.reclaim stack).1.isDead gate with
  | false => exact .inl (Set.ext fun id => gateReads_reclaim_iff.trans (and_iff_left live))
  | true =>
      right
      apply Set.eq_empty_of_forall_notMem
      exact not_gateReads_of_isDead live

theorem Follows.of_reclaim {stack : List Nat} {move : Nat → Nat}
    {targets : Set Nat} {id : Nat} (follows : aig.Follows move targets id) :
    (aig.reclaim stack).1.Follows move targets id := by
  rcases operands_reclaim aig stack id with same | gone
  · rwa [Follows, same]
  · exact .inr (.inl gone)

/-- After a substitution a gate reads what it read before, if it was queued,
or the new node in place of the old one, or it is gone. -/
theorem operands_replaceUses (bookkeeping : aig.Bookkeeping) (constant : aig.isGate 0 = false)
    (applies : aig.applies substitution = true) (gate : Nat) :
    (aig.replaceUses substitution).aig.operands gate = aig.operands gate ∨
      (aig.replaceUses substitution).aig.operands gate =
        substitution.move '' aig.operands gate ∨
      (aig.replaceUses substitution).aig.operands gate = ∅ := by
  rw [replaceUses_eq]
  rcases operands_reclaim (aig.redirected substitution) [substitution.old] gate with same | gone
  · rw [same, ← or_assoc]
    exact .inl ((redirected_moves bookkeeping constant applies).operands gate)
  · exact .inr (.inr gone)

theorem gateReads_of_replaceUses (bookkeeping : aig.Bookkeeping)
    (constant : aig.isGate 0 = false) (applies : aig.applies substitution = true)
    {gate id : Nat} (reads : (aig.replaceUses substitution).aig.GateReads gate id) :
    aig.GateReads gate id ∨
      (aig.GateReads gate substitution.old ∧ id = substitution.new.node) := by
  have member : id ∈ (aig.replaceUses substitution).aig.operands gate := reads
  rcases operands_replaceUses bookkeeping constant applies gate with same | moved | gone
  · rw [same] at member
    exact .inl member
  · rw [moved] at member
    obtain ⟨read, former, rfl⟩ := member
    by_cases isOld : read = substitution.old
    · subst isOld
      exact .inr ⟨former, Substitution.move_old⟩
    · rw [Substitution.move_of_ne isOld]
      exact .inl former
  · rw [gone] at member
    cases member

/-! ### Paths -/

def Above (aig : Aig) (id gate : Nat) : Prop :=
  Relation.TransGen (Network.Reads aig) gate id

theorem isGate_of_above {id gate : Nat} (above : aig.Above id gate) : aig.isGate gate = true := by
  obtain ⟨_, reads, _⟩ := Relation.TransGen.head'_iff.mp above
  obtain ⟨fanins, stored, _⟩ := reads_iff.mp reads
  exact isGate_iff.mpr ⟨fanins, stored⟩

/-- A path after a substitution is a path before it, or goes through the uses
that were redirected. -/
theorem above_of_replaceUses (bookkeeping : aig.Bookkeeping)
    (constant : aig.isGate 0 = false) (applies : aig.applies substitution = true)
    {gate id : Nat} (above : (aig.replaceUses substitution).aig.Above id gate) :
    aig.Above id gate ∨
      (aig.Above substitution.old gate ∧ Network.Reaches aig substitution.new.node id) := by
  induction above with
  | single reads =>
      rcases gateReads_of_replaceUses bookkeeping constant applies (reads_iff.mp reads) with
        former | ⟨readsOld, rfl⟩
      · exact .inl (.single (reads_iff.mpr former))
      · exact .inr ⟨.single (reads_iff.mpr readsOld), .refl⟩
  | @tail middle id _ reads induction =>
      rcases gateReads_of_replaceUses bookkeeping constant applies (reads_iff.mp reads) with
        former | ⟨readsOld, rfl⟩
      · rcases induction with path | ⟨path, rest⟩
        · exact .inl (path.tail (reads_iff.mpr former))
        · exact .inr ⟨path, rest.tail (reads_iff.mpr former)⟩
      · rcases induction with path | ⟨path, _⟩
        · exact .inr ⟨path.tail (reads_iff.mpr readsOld), .refl⟩
        · exact .inr ⟨path, .refl⟩

/-- A store whose records are true and whose gates are free of cycles. -/
structure Orderly (aig : Aig) : Prop where
  bookkeeping : aig.Bookkeeping
  constant : aig.isGate 0 = false
  acyclic : aig.Acyclic

theorem Orderly.replaceUses (orderly : aig.Orderly) (applies : aig.applies substitution = true)
    (independent : aig.independent substitution) :
    (aig.replaceUses substitution).aig.Orderly := by
  constructor
  · exact replaceUses_bookkeeping orderly.bookkeeping applies
  · apply isGate_eq_false_iff.mpr
    have nothing := isGate_eq_false_iff.mp orderly.constant
    rcases operands_replaceUses orderly.bookkeeping orderly.constant applies 0 with
      same | moved | gone
    · rw [same, nothing]
    · rw [moved, nothing, Set.image_empty]
    · exact gone
  · intro id cycle
    rcases above_of_replaceUses orderly.bookkeeping orderly.constant applies cycle with
      former | ⟨path, rest⟩
    · exact orderly.acyclic id former
    · exact independent (rest.trans path.to_reflTransGen)

end Aig

end AndInverter
