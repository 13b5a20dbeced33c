import AndInverter.Proofs.Traversal.DepthFirst
import Mathlib.Data.Finset.Card
import Mathlib.Data.List.Nodup

/-!
# Blocks of a search

On one network a search works off the upper part of its stack before it comes
to the rest.  What it yields meanwhile is a block: the nodes that paths around
all seen nodes lead to from that part.  A whole search is one block for each
start that is new when its turn comes.
-/

namespace AndInverter

open Network

namespace DepthFirst

variable {Store : Type} [Network Store] {network : Store}

def readable (network : Store) : List Nat :=
  (List.range (size network)).flatMap (children network)

theorem mem_readable {source target : Nat} (reads : Reads network source target) :
    target ∈ readable network := by
  refine List.mem_flatMap.mpr ⟨source, List.mem_range.mpr (Nat.lt_of_not_le fun beyond => ?_), reads⟩
  rw [Reads, children, fanins_of_size_le network source beyond] at reads
  cases reads

def unseen (network : Store) (search : DepthFirst) : Finset Nat :=
  (readable network).toFinset.filter fun id => ¬ search.Saw id

theorem Pushed.card_unseen {search later : DepthFirst} {id : Nat} {fresh : List Nat}
    (pushed : Pushed search later (children network id) fresh) :
    (unseen network later).card + fresh.length = (unseen network search).card := by
  have subset : fresh.toFinset ⊆ unseen network search := by
    intro other member
    obtain ⟨reads, new⟩ := (pushed.mem_fresh other).mp (List.mem_toFinset.mp member)
    exact Finset.mem_filter.mpr ⟨List.mem_toFinset.mpr (mem_readable reads), new⟩
  have left : unseen network later = unseen network search \ fresh.toFinset := by
    ext other
    simp only [unseen, Finset.mem_filter, Finset.mem_sdiff, List.mem_toFinset, pushed.mem_fresh,
      pushed.saw]
    tauto
  rw [left, ← List.toFinset_card_of_nodup pushed.nodup]
  exact Finset.card_sdiff_add_card_eq_card subset

/-- The calls that work off the upper part of a stack. -/
structure Block (network : Store) (search : DepthFirst) (tops rest ids : List Nat)
    (later : DepthFirst) : Prop where
  visits : Visits network search ids later
  stack : later.stack = rest
  starts : later.starts = search.starts
  nodup : ids.Nodup
  mem_iff : ∀ id, id ∈ ids ↔ ∃ top ∈ tops, ReachesAround network search.Saw top id
  saw : ∀ id, later.Saw id ↔ search.Saw id ∨ id ∈ ids

/-- Whatever lies below the top of the stack lies below its new fanins or the
rest of the upper part, around these too. -/
theorem Pushed.reaches_iff {search later : DepthFirst} {id other : Nat}
    {tops rest fresh : List Nat} (sound : search.Sound) (stack : search.stack = id :: tops ++ rest)
    (pushed : Pushed { search with stack := tops ++ rest } later (children network id) fresh) :
    (∃ top ∈ id :: tops, ReachesAround network search.Saw top other) ↔
      other = id ∨ ∃ top ∈ fresh ++ tops, ReachesAround network later.Saw top other := by
  have waits : ∀ top ∈ tops, search.Saw top := fun top member =>
    sound.saw top (stack ▸ List.mem_append_left _ (List.mem_cons_of_mem id member))
  -- A path that begins at one of the new tops can begin at the last of them that it meets.
  have last : ∀ top ∈ fresh ++ tops, ReachesAround network search.Saw top other →
      ∃ top ∈ fresh ++ tops, ReachesAround network later.Saw top other := by
    intro top member reaches
    obtain ⟨last, isTop, around⟩ := reaches.exists_last (· ∈ fresh ++ tops) member
    refine ⟨last, isTop, around.mono fun node saw => ?_⟩
    rcases (pushed.saw node).mp saw with former | reads
    · exact .inl former
    · by_cases former : search.Saw node
      · exact .inl former
      · exact .inr (List.mem_append_left _ ((pushed.mem_fresh node).mpr ⟨reads, former⟩))
  constructor
  · rintro ⟨top, member, reaches⟩
    rcases List.mem_cons.mp member with rfl | waiting
    · rcases Relation.ReflTransGen.cases_head reaches with rfl | ⟨child, ⟨reads, new⟩, below⟩
      · exact .inl rfl
      · have isFresh : child ∈ fresh := (pushed.mem_fresh child).mpr ⟨reads, new⟩
        exact .inr (last child (List.mem_append_left _ isFresh) below)
    · exact .inr (last top (List.mem_append_right _ waiting) reaches)
  · have fewer : ∀ node, search.Saw node → later.Saw node := fun node former =>
      (pushed.saw node).mpr (.inl former)
    rintro (rfl | ⟨top, member, reaches⟩)
    · exact ⟨other, List.mem_cons_self, .refl⟩
    · rcases List.mem_append.mp member with isFresh | waiting
      · have step := (pushed.mem_fresh top).mp isFresh
        exact ⟨id, List.mem_cons_self, .head step (reaches.mono fewer)⟩
      · exact ⟨top, List.mem_cons_of_mem id waiting, reaches.mono fewer⟩

/-- The upper part of a stack is worked off in a block.  Each call takes one
node off it, and what it puts there is unseen no longer. -/
theorem exists_block {search : DepthFirst} {tops rest : List Nat} (sound : search.Sound)
    (stack : search.stack = tops ++ rest) :
    ∃ ids later, Block network search tops rest ids later := by
  generalize weight : (unseen network search).card + tops.length = calls
  induction calls generalizing search tops with
  | zero =>
      obtain rfl : tops = [] := List.eq_nil_of_length_eq_zero (by omega)
      exact ⟨[], search, .refl search, stack, rfl, List.nodup_nil, by simp, by simp⟩
  | succ calls induction =>
      cases tops with
      | nil => exact ⟨[], search, .refl search, stack, rfl, List.nodup_nil, by simp, by simp⟩
      | cons id tops =>
          have restarted := restart_of_stack stack
          have top : search.restart.stack = id :: (tops ++ rest) :=
            (congrArg DepthFirst.stack restarted).trans stack
          have called : ∃ middle, search.next network = some (id, middle) := next_of_stack top
          obtain ⟨middle, call⟩ := called
          obtain ⟨others, fresh, again, pushed⟩ := exists_pushed_of_next call
          rw [top] at again
          cases again
          rw [restarted] at pushed
          have nodup := sound.nodup
          rw [stack, List.cons_append, List.nodup_cons] at nodup
          have topSaw : search.Saw id := sound.saw id (stack ▸ List.mem_cons_self)
          have fewer := pushed.card_unseen
          have lighter : (unseen network middle).card + (fresh ++ tops).length = calls := by
            rw [List.length_append, ← Nat.add_assoc, fewer]
            exact Nat.succ.inj weight
          have middleStack : middle.stack = fresh ++ tops ++ rest := by
            rw [pushed.stack, List.append_assoc]
          obtain ⟨ids, later, block⟩ := induction (pushed.sound sound stack) middleStack lighter
          refine ⟨id :: ids, later, .step call block.visits, block.stack,
            block.starts.trans pushed.starts, List.nodup_cons.mpr ⟨?_, block.nodup⟩, ?_, ?_⟩
          · intro again
            obtain ⟨later, isTop, reaches⟩ := (block.mem_iff id).mp again
            rcases reaches.eq_or_free with rfl | new
            · rcases List.mem_append.mp isTop with isFresh | waiting
              · exact ((pushed.mem_fresh id).mp isFresh).2 topSaw
              · exact nodup.1 (List.mem_append_left rest waiting)
            · exact new ((pushed.saw id).mpr (.inl topSaw))
          · intro other
            rw [pushed.reaches_iff sound stack, List.mem_cons, block.mem_iff]
          · intro other
            rw [block.saw, pushed.saw, List.mem_cons]
            constructor
            · rintro ((former | reads) | yielded)
              · exact .inl former
              · by_cases former : search.Saw other
                · exact .inl former
                · have isFresh : other ∈ fresh := (pushed.mem_fresh other).mpr ⟨reads, former⟩
                  have member : other ∈ ids := (block.mem_iff other).mpr
                    ⟨other, List.mem_append_left tops isFresh, .refl⟩
                  exact .inr (.inr member)
              · exact .inr (.inr yielded)
            · rintro (former | rfl | yielded)
              · exact .inl (.inl former)
              · exact .inl (.inl topSaw)
              · exact .inr yielded

end DepthFirst

end AndInverter
