import AndInverter.Proofs.Substitution.Operands

/-!
# What a settled substitution does to the store

A substitution leads to others: each gate that was queued is replaced by what
follows it, with all that this leads to, before the next one takes its turn.
If every entry of the worklist settles, the outcome is a folded store:
`image` tells what has taken the place of each node, every gate that is left
reads the images of its former operands, and what has taken the place of a
gate follows it.  The store stays acyclic.
-/

namespace AndInverter

namespace Aig

/-- What substitutions make of a store apart from its edges: gates stay gates
or die, dead nodes stay dead, and no gate is left dangling. -/
structure Shrinks (aig store : Aig) : Prop where
  gates : ∀ id, aig.isGate id = true → store.isGate id = true ∨ store.isDead id = true
  dead : ∀ id, aig.isDead id = true → store.isDead id = true
  dangling : ∀ id, (store.dangling? id).isSome = true → (aig.dangling? id).isSome = true

theorem Shrinks.trans {aig middle store : Aig} (first : aig.Shrinks middle)
    (second : middle.Shrinks store) : aig.Shrinks store := by
  constructor
  · intro id isGate
    rcases first.gates id isGate with still | dead
    · exact second.gates id still
    · exact .inr (second.dead id dead)
  · intro id dead
    exact second.dead id (first.dead id dead)
  · intro id dangling
    exact first.dangling id (second.dangling id dangling)

theorem replaceUses_shrinks {aig : Aig} {substitution : Substitution}
    (bookkeeping : aig.Bookkeeping) (applies : aig.applies substitution = true) :
    aig.Shrinks (aig.replaceUses substitution).aig := by
  have redirects := redirected_redirects bookkeeping applies
  have sameDead : ∀ id, (aig.redirected substitution).isDead id = aig.isDead id := by
    intro id
    apply redirected_keep (fun store _ => store.isDead id = aig.isDead id)
    · intro _ _ _ _ _ _ _ _ _ _ same
      exact same
    · intro store _ gate _ after _ stored _ _ same
      exact (isDead_setFanins after substitution stored id).trans same
    · exact applies
    · exact isDead_redirectOutputs aig substitution id
  have removed : ∀ {store : Aig} {gone : Nat} {fanins : Fanins} (id : Nat),
      store.dangling? gone = some fanins →
      (store.removeGate gone fanins).isDead id = (decide (gone = id) || store.isDead id) := by
    intro store gone fanins id dangling
    have inside := lt_size_of_gateFanins? (dangling?_eq_some_iff.mp dangling).2
    rw [isDead, node?_removeGate]
    by_cases own : gone = id
    · subst own
      simp [inside]
    · simp [own, isDead]
  rw [replaceUses_eq]
  constructor
  · intro id isGate
    rw [← redirects.gates] at isGate
    apply reclaim_keep (fun store => store.isGate id = true ∨ store.isDead id = true)
    · intro store gone fanins dangling former
      rw [removed id dangling, isGate_removeGate]
      by_cases own : gone = id
      · exact .inr (by simp [own])
      · simpa [own] using former
    · exact .inl isGate
  · intro id dead
    apply reclaim_keep (fun store => store.isDead id = true)
    · intro store gone fanins dangling former
      rw [removed id dangling, former, Bool.or_true]
    · rw [sameDead, dead]
  · intro id dangling
    rw [← replaceUses_eq] at dangling
    exact (dangling?_of_replaceUses bookkeeping applies dangling).1

/-- The store while a substitution and those that it leads to are performed.
`image` sends each node to what has taken its place so far; the gates of
`waiting` still read the substituted node, and each is to be replaced by what
follows it. -/
structure Folding (aig : Aig) (retired : List Nat) (substitution : Substitution)
    (image : Nat → Nat) (store : Aig) (waiting : List Substitution) : Prop
    extends Shrinks aig store where
  independent : aig.independent substitution
  orderly : store.Orderly
  old : image substitution.old = substitution.new.node
  /-- Only gates above the substituted node are replaced, and they are gone. -/
  moved : ∀ id, image id ≠ id → id = substitution.old ∨
    aig.Above substitution.old id ∧ store.isGate id = false
  fresh : ∀ id, image id ≠ id → image id ≠ substitution.old ∧ image id ∉ retired
  above : ∀ id, store.Above substitution.old id → aig.Above substitution.old id
  operands : ∀ gate, store.isGate gate = true →
    substitution.move '' store.operands gate = image '' aig.operands gate
  follows : ∀ gate, aig.isGate gate = true → gate ≠ substitution.old →
    store.Follows substitution.move (image '' aig.operands gate) (image gate)
  outputs : store.outputs.map (·.node) = aig.outputs.map fun output => image output.node
  readers : ∀ gate, store.GateReads gate substitution.old → ∃ entry ∈ waiting, entry.old = gate
  entries : ∀ entry ∈ waiting, store.isDead entry.old = true ∨
    store.GateReads entry.old substitution.old ∧
      store.Follows substitution.move (substitution.move '' store.operands entry.old)
        entry.new.node
  undangling : store.dangling? substitution.old = none

namespace Folding

variable {aig store next : Aig} {retired known : List Nat} {substitution entry : Substitution}
  {image later : Nat → Nat} {waiting : List Substitution}

theorem different (folding : Folding aig retired substitution image store waiting) :
    substitution.new.node ≠ substitution.old :=
  fun same => folding.independent (same ▸ Relation.ReflTransGen.refl)

theorem store_independent (folding : Folding aig retired substitution image store waiting) :
    store.independent substitution := by
  intro reaches
  rcases Relation.reflTransGen_iff_eq_or_transGen.mp reaches with same | path
  · exact folding.different same.symm
  · exact folding.independent (folding.above _ path).to_reflTransGen

theorem image_ne_old (folding : Folding aig retired substitution image store waiting) (id : Nat) :
    image id ≠ substitution.old := by
  by_cases fixed : image id = id
  · intro isOld
    have same : id = substitution.old := fixed.symm.trans isOld
    rw [same, folding.old] at isOld
    exact folding.different isOld
  · exact (folding.fresh id fixed).1

theorem image_of_not_isGate (folding : Folding aig retired substitution image store waiting)
    {id : Nat} (noGate : aig.isGate id = false) (notOld : id ≠ substitution.old) :
    image id = id := by
  by_contra moves
  rcases folding.moved id moves with isOld | ⟨above, _⟩
  · exact notOld isOld
  · rw [isGate_of_above above] at noGate
    cases noGate

theorem image_new (folding : Folding aig retired substitution image store waiting) :
    image substitution.new.node = substitution.new.node := by
  by_contra moves
  rcases folding.moved _ moves with isOld | ⟨above, _⟩
  · exact folding.different isOld
  · exact folding.independent above.to_reflTransGen

theorem isGate_before (folding : Folding aig retired substitution image store waiting) {gate : Nat}
    (isGate : store.isGate gate = true) : aig.isGate gate = true := by
  rw [← Bool.not_eq_false]
  intro noGate
  have same := folding.operands gate isGate
  rw [isGate_eq_false_iff.mp noGate, Set.image_empty, Set.image_eq_empty] at same
  rw [isGate_eq_false_iff.mpr same] at isGate
  cases isGate

theorem image_of_isGate (folding : Folding aig retired substitution image store waiting)
    {gate : Nat} (isGate : store.isGate gate = true) (notOld : gate ≠ substitution.old) :
    image gate = gate := by
  by_contra moves
  rcases folding.moved gate moves with isOld | ⟨_, gone⟩
  · exact notOld isOld
  · rw [gone] at isGate
    cases isGate

/-! ### The end -/

theorem image_move_operands (folding : Folding aig retired substitution image next [])
    (gate : Nat) : substitution.move '' next.operands gate = next.operands gate := by
  apply Substitution.image_move_eq
  intro reads
  obtain ⟨entry, member, _⟩ := folding.readers gate reads
  cases member

theorem operands_eq (folding : Folding aig retired substitution image next []) {gate : Nat}
    (isGate : next.isGate gate = true) : next.operands gate = image '' aig.operands gate := by
  rw [← folding.image_move_operands, folding.operands gate isGate]

theorem follows_eq (folding : Folding aig retired substitution image next []) {gate : Nat}
    (isGate : aig.isGate gate = true) (notOld : gate ≠ substitution.old) :
    image gate ∈ image '' aig.operands gate ∨ next.operands (image gate) = ∅ ∨
      next.operands (image gate) = image '' aig.operands gate := by
  rw [← folding.image_move_operands (image gate)]
  rcases folding.follows gate isGate notOld with target | nothing | same
  · exact .inl target
  · exact .inr (.inl (by rw [nothing, Set.image_empty]))
  · exact .inr (.inr same)

theorem old_gone (folding : Folding aig retired substitution image next []) :
    next.isGate substitution.old = false := by
  rw [← Bool.not_eq_true]
  intro isGate
  have unused : ¬ next.Used substitution.old := by
    intro used
    rcases used with ⟨gate, reads⟩ | ⟨output, member, same⟩
    · obtain ⟨entry, member, _⟩ := folding.readers gate reads
      cases member
    · have moved : output.node ∈ next.outputs.map (·.node) := Array.mem_map.mpr ⟨output, member, rfl⟩
      rw [folding.outputs, same] at moved
      obtain ⟨former, _, isOld⟩ := Array.mem_map.mp moved
      exact folding.image_ne_old _ isOld
  have dangling := (dangling?_isSome_iff folding.orderly.bookkeeping).mpr ⟨unused, isGate⟩
  rw [folding.undangling] at dangling
  cases dangling

theorem isGate_of_moved (folding : Folding aig retired substitution image next []) {id : Nat}
    (moves : image id ≠ id) : next.isGate id = false := by
  rcases folding.moved id moves with rfl | ⟨_, gone⟩
  · exact folding.old_gone
  · exact gone

/-! ### The start -/

theorem start (orderly : aig.Orderly) (applies : aig.applies substitution = true)
    (independent : aig.independent substitution) (fresh : substitution.new.node ∉ retired) :
    Folding aig retired substitution substitution.move (aig.replaceUses substitution).aig
      (aig.replaceUses substitution).instead := by
  have different := (applies_iff.mp applies).1
  have bookkeeping := orderly.bookkeeping
  have constant := orderly.constant
  have moves := redirected_moves bookkeeping constant applies
  have onlyOld : ∀ id, substitution.move id ≠ id → id = substitution.old := by
    intro id moves
    by_contra notOld
    exact moves (Substitution.move_of_ne notOld)
  have operands : ∀ gate, (aig.replaceUses substitution).aig.isGate gate = true →
      substitution.move '' (aig.replaceUses substitution).aig.operands gate =
        substitution.move '' aig.operands gate := by
    intro gate isGate
    rcases operands_replaceUses bookkeeping constant applies gate with same | moved | gone
    · rw [same]
    · rw [moved, Substitution.image_move_image different]
    · rw [isGate_eq_false_iff.mpr gone] at isGate
      cases isGate
  refine { replaceUses_shrinks bookkeeping applies with
           independent := independent, orderly := orderly.replaceUses applies independent,
           old := Substitution.move_old, moved := fun id moves => .inl (onlyOld id moves),
           fresh := ?_, above := ?_, operands := operands, follows := ?_, outputs := ?_,
           readers := ?_, entries := ?_, undangling := ?_ }
  · intro id moves
    rw [onlyOld id moves, Substitution.move_old]
    exact ⟨different, fresh⟩
  · intro id above
    rcases above_of_replaceUses bookkeeping constant applies above with former | ⟨path, _⟩
    · exact former
    · exact path
  · intro gate _ notOld
    rw [Substitution.move_of_ne notOld]
    cases still : (aig.replaceUses substitution).aig.isGate gate with
    | false => exact .inr (.inl (isGate_eq_false_iff.mp still))
    | true => exact .inr (.inr (operands gate still))
  · rw [replaceUses_eq, outputs_reclaim, outputs_redirected applies, Array.map_map]
    apply Array.map_congr_left
    intro output _
    unfold redirect Substitution.move
    simp only [Function.comp_apply]
    split
    · exact Edge.node_complementIf ..
    · rfl
  · intro gate reads
    exact (gateReads_redirected_iff bookkeeping applies gate).mp (gateReads_of_reclaim reads)
  · intro entry member
    cases live : (aig.replaceUses substitution).aig.isDead entry.old with
    | true => exact .inl rfl
    | false =>
        have waits : (aig.redirected substitution).GateReads entry.old substitution.old :=
          (gateReads_redirected_iff bookkeeping applies entry.old).mpr ⟨entry, member, rfl⟩
        have same : (aig.replaceUses substitution).aig.operands entry.old =
            aig.operands entry.old := by
          rw [← moves.eq_of_reads different waits]
          exact Set.ext fun id => gateReads_reclaim_iff.trans (and_iff_left live)
        obtain ⟨reads, follows⟩ := moves.queued entry member
        right
        constructor
        · rwa [← mem_operands, same]
        · rw [same]
          exact follows.of_reclaim
  · apply Option.not_isSome_iff_eq_none.mp
    intro dangling
    exact (dangling?_of_replaceUses bookkeeping applies dangling).2 rfl

/-! ### One waiting gate -/

section Step

variable (folding : Folding aig retired substitution image store (entry :: waiting))
  (done : Folding store known entry later next [])
  (reads : store.GateReads entry.old substitution.old)
  (listed : substitution.old ∈ known)

include reads in
omit folding in
theorem above_entry {id : Nat} (above : store.Above entry.old id) :
    store.Above substitution.old id :=
  above.tail (reads_iff.mpr reads)

include folding done reads in
private theorem later_old : later substitution.old = substitution.old := by
  by_contra moves
  rcases done.moved _ moves with same | ⟨above, _⟩
  · rw [← same] at reads
    exact folding.orderly.acyclic _ (.single (reads_iff.mpr reads))
  · exact folding.orderly.acyclic _ (above_entry reads above)

include folding done reads in
private theorem later_new : later substitution.new.node = substitution.new.node := by
  by_contra moves
  apply folding.store_independent
  rcases done.moved _ moves with same | ⟨above, _⟩
  · rw [same]
    exact .single (reads_iff.mpr reads)
  · exact (above_entry reads above).to_reflTransGen

include done listed in
private theorem later_ne_old {id : Nat} (notOld : id ≠ substitution.old) :
    later id ≠ substitution.old := by
  by_cases fixed : later id = id
  · rwa [fixed]
  · intro isOld
    exact (done.fresh id fixed).2 (isOld ▸ listed)

include folding done reads listed in
private theorem move_later (id : Nat) :
    substitution.move (later id) = later (substitution.move id) := by
  by_cases isOld : id = substitution.old
  · rw [isOld, later_old folding done reads, Substitution.move_old, later_new folding done reads]
  · rw [Substitution.move_of_ne isOld, Substitution.move_of_ne (later_ne_old done listed isOld)]

include folding done reads listed in
private theorem image_move_later (nodes : Set Nat) :
    substitution.move '' (later '' nodes) = later '' (substitution.move '' nodes) := by
  rw [Set.image_image, Set.image_image]
  exact Set.image_congr' (move_later folding done reads listed)

include folding done reads listed in
theorem follows_of_fixed {targets : Set Nat} {id : Nat} (fixed : later id = id)
    (former : store.Follows substitution.move targets id) :
    next.Follows substitution.move (later '' targets) id := by
  cases isGate : next.isGate id with
  | false => exact .inr (.inl (isGate_eq_false_iff.mp isGate))
  | true =>
      rcases former with target | nothing | same
      · exact .inl ⟨id, target, fixed⟩
      · have before := done.isGate_before isGate
        rw [isGate_eq_false_iff.mpr nothing] at before
        cases before
      · right
        right
        rw [done.operands_eq isGate, image_move_later folding done reads listed, same]

include folding done reads listed in
theorem follows_later (replacement : store.Follows substitution.move
      (substitution.move '' store.operands entry.old) entry.new.node) {targets : Set Nat} {id : Nat}
    (former : store.Follows substitution.move targets id) :
    next.Follows substitution.move (later '' targets) (later id) := by
  by_cases fixed : later id = id
  · rw [fixed]
    exact follows_of_fixed folding done reads listed fixed former
  · have isGate : store.isGate id = true := by
      rcases done.moved id fixed with rfl | ⟨above, _⟩
      · exact isGate_of_above (.single (reads_iff.mpr reads))
      · exact isGate_of_above above
    rcases former with target | nothing | same
    · exact .inl ⟨id, target, rfl⟩
    · rw [isGate_eq_false_iff.mpr nothing] at isGate
      cases isGate
    · by_cases isEntry : id = entry.old
      · subst isEntry
        rw [done.old]
        rw [same] at replacement
        exact follows_of_fixed folding done reads listed done.image_new replacement
      · rcases done.follows_eq isGate isEntry with ⟨read, member, equal⟩ | nothing | images
        · have notOld : read ≠ substitution.old := by
            rintro rfl
            rw [later_old folding done reads] at equal
            exact (done.fresh id fixed).2 (equal ▸ listed)
          refine .inl ⟨read, ?_, equal⟩
          rw [← same]
          exact ⟨read, member, Substitution.move_of_ne notOld⟩
        · exact .inr (.inl nothing)
        · right
          right
          rw [images, image_move_later folding done reads listed, same]

include folding done reads listed in
theorem entries_later (entry' : Substitution)
    (former : store.isDead entry'.old = true ∨
      store.GateReads entry'.old substitution.old ∧
        store.Follows substitution.move (substitution.move '' store.operands entry'.old)
          entry'.new.node) :
    next.isDead entry'.old = true ∨
      next.GateReads entry'.old substitution.old ∧
        next.Follows substitution.move (substitution.move '' next.operands entry'.old)
          entry'.new.node := by
  rcases former with dead | ⟨waits, follows⟩
  · exact .inl (done.dead _ dead)
  · rcases done.gates _ (isGate_of_above (.single (reads_iff.mpr waits))) with isGate | dead
    · right
      have operands := done.operands_eq isGate
      constructor
      · rw [← mem_operands, operands]
        exact ⟨substitution.old, waits, later_old folding done reads⟩
      · rw [operands, image_move_later folding done reads listed]
        by_cases fixed : later entry'.new.node = entry'.new.node
        · exact follows_of_fixed folding done reads listed fixed follows
        · exact .inr (.inl (isGate_eq_false_iff.mp (done.isGate_of_moved fixed)))
    · exact .inl dead

include done reads in
theorem above_before {id : Nat} (above : next.Above substitution.old id) :
    store.Above substitution.old id := by
  have step : ∀ {gate read}, Network.Reads next gate read →
      Network.Reads store gate read ∨ store.Above substitution.old gate := by
    intro gate read present
    have member : read ∈ next.operands gate := reads_iff.mp present
    rw [done.operands_eq (isGate_of_above (.single present))] at member
    obtain ⟨former, formerly, rfl⟩ := member
    have path : Network.Reads store gate former := reads_iff.mpr formerly
    by_cases fixed : later former = former
    · rw [fixed]
      exact .inl path
    · right
      apply above_entry reads
      rcases done.moved former fixed with rfl | ⟨above, _⟩
      · exact .single path
      · exact .head path above
  induction above using Relation.TransGen.head_induction_on with
  | single last =>
      rcases step last with former | already
      · exact .single former
      · exact already
  | head first _ induction =>
      rcases step first with former | already
      · exact .head former induction
      · exact already

include folding done reads listed in
/-- One of the waiting gates is replaced, with all that this leads to. -/
theorem perform (subset : retired ⊆ known)
    (replacement : store.Follows substitution.move
      (substitution.move '' store.operands entry.old) entry.new.node) :
    Folding aig retired substitution (later ∘ image) next waiting := by
  have gone : ∀ {gate}, store.isGate gate = false → next.isGate gate = false := by
    intro gate noGate
    rw [← Bool.not_eq_true] at noGate ⊢
    intro isGate
    exact noGate (done.isGate_before isGate)
  refine { folding.toShrinks.trans done.toShrinks with
           independent := folding.independent, orderly := done.orderly,
           old := ?_, moved := ?_, fresh := ?_, above := ?_, operands := ?_, follows := ?_,
           outputs := ?_, readers := ?_, entries := ?_, undangling := ?_ }
  · rw [Function.comp_apply, folding.old, later_new folding done reads]
  · intro id moves
    by_cases fixed : image id = id
    · rw [Function.comp_apply, fixed] at moves
      right
      refine ⟨?_, done.isGate_of_moved moves⟩
      apply folding.above
      rcases done.moved id moves with rfl | ⟨above, _⟩
      · exact .single (reads_iff.mpr reads)
      · exact above_entry reads above
    · rcases folding.moved id fixed with isOld | ⟨above, noGate⟩
      · exact .inl isOld
      · exact .inr ⟨above, gone noGate⟩
  · intro id moves
    by_cases fixed : later (image id) = image id
    · rw [Function.comp_apply, fixed] at moves ⊢
      exact folding.fresh id moves
    · obtain ⟨_, unknown⟩ := done.fresh _ fixed
      exact ⟨later_ne_old done listed (folding.image_ne_old id), fun old => unknown (subset old)⟩
  · intro id above
    exact folding.above id (above_before done reads above)
  · intro gate isGate
    rw [done.operands_eq isGate, image_move_later folding done reads listed,
      folding.operands gate (done.isGate_before isGate), Set.image_image]
    rfl
  · intro gate isGate notOld
    have follows := follows_later folding done reads listed replacement
      (folding.follows gate isGate notOld)
    rwa [Set.image_image] at follows
  · have composed := congrArg (·.map later) folding.outputs
    simp only [Array.map_map] at composed
    exact done.outputs.trans composed
  · intro gate readsOld
    have isGate := isGate_of_above (.single (reads_iff.mpr readsOld))
    have former : store.GateReads gate substitution.old := by
      rw [← mem_operands, done.operands_eq isGate] at readsOld
      obtain ⟨read, formerly, isOld⟩ := readsOld
      by_contra unread
      exact later_ne_old done listed (fun same => unread (same ▸ formerly)) isOld
    obtain ⟨waits, member, rfl⟩ := folding.readers gate former
    rcases List.mem_cons.mp member with rfl | still
    · rw [done.old_gone] at isGate
      cases isGate
    · exact ⟨waits, still, rfl⟩
  · intro other member
    exact entries_later folding done reads listed other
      (folding.entries other (List.mem_cons_of_mem _ member))
  · apply Option.not_isSome_iff_eq_none.mp
    intro dangling
    have former := done.dangling _ dangling
    rw [folding.undangling] at former
    cases former

end Step

theorem skip (folding : Folding aig retired substitution image store (entry :: waiting))
    (dead : store.isDead entry.old = true) :
    Folding aig retired substitution image store waiting := by
  refine { folding with readers := ?_, entries := ?_ }
  · intro gate reads
    obtain ⟨waits, member, rfl⟩ := folding.readers gate reads
    rcases List.mem_cons.mp member with rfl | still
    · exact absurd reads (not_gateReads_of_isDead dead _)
    · exact ⟨waits, still, rfl⟩
  · intro other member
    exact folding.entries other (List.mem_cons_of_mem _ member)

/-- A waiting gate that is alive can be replaced by what follows it without
closing a cycle. -/
theorem entry_independent (folding : Folding aig retired substitution image store waiting)
    (reads : store.GateReads entry.old substitution.old)
    (follows : store.Follows substitution.move (substitution.move '' store.operands entry.old)
      entry.new.node)
    (different : entry.new.node ≠ entry.old) : store.independent entry := by
  -- whatever the entry's operands move to lies below it or does not depend on it
  have below : ∀ {read}, read ∈ store.operands entry.old →
      ¬ Network.Reaches store (substitution.move read) entry.old := by
    intro read member reaches
    by_cases isOld : read = substitution.old
    · rw [isOld, Substitution.move_old] at reaches
      exact folding.store_independent (reaches.tail (reads_iff.mpr reads))
    · rw [Substitution.move_of_ne isOld] at reaches
      exact folding.orderly.acyclic _ (.head' (reads_iff.mpr member) reaches)
  intro reaches
  rcases follows with ⟨read, member, same⟩ | reading
  · exact below member (same ▸ reaches)
  · rcases reaches.cases_head with same | ⟨read, first, rest⟩
    · exact different same
    · have member : read ∈ store.operands entry.new.node := reads_iff.mp first
      rcases reading with nothing | same
      · rw [nothing] at member
        cases member
      · by_cases isOld : read = substitution.old
        · rw [isOld] at rest
          exact folding.orderly.acyclic _ (.tail' rest (reads_iff.mpr reads))
        · have moved : substitution.move read ∈ substitution.move '' store.operands entry.old :=
            same ▸ ⟨read, member, rfl⟩
          obtain ⟨own, ownMember, equal⟩ := moved
          rw [Substitution.move_of_ne isOld] at equal
          exact below ownMember (equal ▸ rest)

end Folding

/-- If the worklist settles, all that waits is replaced in turn. -/
theorem Folding.finish {fuel : Nat} {aig store : Aig} {retired known : List Nat}
    {substitution : Substitution} {image : Nat → Nat} {waiting rest : List Substitution}
    (folding : Folding aig retired substitution image store waiting)
    (listed : substitution.old ∈ known) (subset : retired ⊆ known)
    (settles : store.settles fuel known (waiting ++ rest) = true) :
    ∃ later next changes left more, left ≤ fuel ∧ known ⊆ more ∧
      Drains store waiting next changes ∧ Folding aig retired substitution later next [] ∧
      next.settles left more rest = true := by
  induction fuel using Nat.strongRecOn generalizing aig store retired known substitution image
    waiting rest with
  | ind fuel induction =>
    cases waiting with
    | nil => exact ⟨image, store, [], fuel, known, Nat.le_refl _, List.Subset.refl _, .done _,
        folding, settles⟩
    | cons entry waiting =>
      cases fuel with
      | zero => cases settles
      | succ fuel =>
        rw [List.cons_append, Aig.settles] at settles
        split at settles
        · rename_i applies
          rw [Bool.and_eq_true] at settles
          obtain ⟨fresh, settles⟩ := settles
          obtain ⟨different, live, _⟩ := applies_iff.mp applies
          have unknown : entry.new.node ∉ known := by simpa using fresh
          rcases folding.entries entry List.mem_cons_self with dead | ⟨reads, follows⟩
          · rw [dead] at live
            cases live
          · have independent := folding.entry_independent reads follows different
            have started := Folding.start folding.orderly applies independent unknown
            obtain ⟨first, middle, early, left, more, fewer, grown, drained, done, settled⟩ :=
              induction fuel (Nat.lt_succ_self _) started List.mem_cons_self
                (List.subset_cons_self _ _) settles
            have known_more : known ⊆ more :=
              fun _ member => grown (List.mem_cons_of_mem _ member)
            have performed := folding.perform done reads listed subset follows
            obtain ⟨later, next, late, least, most, fewest, widest, continued, ended, rested⟩ :=
              induction left (Nat.lt_succ_of_le fewer) performed (known_more listed)
                (List.Subset.trans subset known_more) settled
            exact ⟨later, next, _, least, most, Nat.le_succ_of_le (Nat.le_trans fewest fewer),
              List.Subset.trans known_more widest, .perform applies (drained.append continued),
              ended, rested⟩
        · rename_i idle
          rw [Bool.and_eq_true] at settles
          obtain ⟨later, next, changes, left, more, fewer, grown, drained, done, settled⟩ :=
            induction fuel (Nat.lt_succ_self _) (folding.skip settles.1) listed subset settles.2
          exact ⟨later, next, changes, left, more, Nat.le_succ_of_le fewer, grown,
            .skip (Bool.not_eq_true _ ▸ idle) drained, done, settled⟩

end Aig
end AndInverter
