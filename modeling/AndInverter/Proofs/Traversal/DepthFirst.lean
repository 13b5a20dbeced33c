import AndInverter.Proofs.Traversal.Topological
import AndInverter.Traversal.Calls

/-!
# What a depth-first search yields

One call takes the top of the stack and puts the fanins on it that the search
has not seen, whatever network it looks at.  So no node comes twice, and on one
network whatever lies above some node of the stack is the part of the network
that paths around the seen nodes lead to.
-/

namespace AndInverter

namespace Network

variable {Store : Type} [Network Store] {network : Store}

theorem ReachesAround.mono {blocked fewer : Nat → Prop} {source target : Nat}
    (within : ∀ id, fewer id → blocked id)
    (reaches : ReachesAround network blocked source target) :
    ReachesAround network fewer source target :=
  Relation.ReflTransGen.mono (fun _ _ ⟨reads, free⟩ => ⟨reads, fun taken => free (within _ taken)⟩)
    source target reaches

theorem ReachesAround.reaches {blocked : Nat → Prop} {source target : Nat}
    (reaches : ReachesAround network blocked source target) : Reaches network source target :=
  Relation.ReflTransGen.mono (fun _ _ step => step.1) source target reaches

theorem ReachesAround.eq_or_free {blocked : Nat → Prop} {source target : Nat}
    (reaches : ReachesAround network blocked source target) :
    target = source ∨ ¬ blocked target := by
  rcases Relation.ReflTransGen.cases_tail reaches with same | ⟨_, _, step⟩
  · exact .inl same
  · exact .inr step.2

/-- From the last of some nodes on a path, the path goes around all of them. -/
theorem ReachesAround.exists_last (tops : Nat → Prop) {blocked : Nat → Prop}
    {source target : Nat} (top : tops source)
    (reaches : ReachesAround network blocked source target) :
    ∃ last, tops last ∧
      ReachesAround network (fun id => blocked id ∨ tops id) last target := by
  induction reaches with
  | refl => exact ⟨source, top, .refl⟩
  | @tail middle target _ step induction =>
      by_cases isTop : tops target
      · exact ⟨target, isTop, .refl⟩
      · obtain ⟨last, lastTop, path⟩ := induction
        exact ⟨last, lastTop, path.tail ⟨step.1, not_or.mpr ⟨step.2, isTop⟩⟩⟩

theorem reachesAround_source_iff {blocked : Nat → Prop} {source target : Nat} :
    ReachesAround network (fun id => blocked id ∨ id = source) source target ↔
      ReachesAround network blocked source target := by
  constructor
  · exact fun reaches => reaches.mono fun _ => .inl
  · intro reaches
    obtain ⟨last, rfl, around⟩ := reaches.exists_last (· = source) rfl
    exact around

theorem reachedFrom_cons {start id : Nat} {starts : List Nat} :
    ReachedFrom network (start :: starts) id ↔
      Reaches network start id ∨ ReachedFrom network starts id := by
  simp [ReachedFrom]

end Network

open Network

namespace DepthFirst

/-- A node was put on the stack at some time. -/
def Saw (search : DepthFirst) (id : Nat) : Prop :=
  search.seen.contains id = true

instance (search : DepthFirst) : DecidablePred search.Saw :=
  fun _ => inferInstanceAs (Decidable (_ = true))

/-- The nodes on the stack were seen, and each of them waits there once. -/
structure Sound (search : DepthFirst) : Prop where
  nodup : search.stack.Nodup
  saw : ∀ id ∈ search.stack, search.Saw id

/-! ### One call -/

private theorem push_of_saw {search : DepthFirst} {id : Nat} (saw : search.Saw id) :
    search.push id = search :=
  if_pos saw

theorem push_of_new {search : DepthFirst} {id : Nat} (new : ¬ search.Saw id) :
    search.push id =
      { search with stack := id :: search.stack, seen := search.seen.insert id } :=
  if_neg new

theorem saw_push {search : DepthFirst} {id other : Nat} :
    (search.push id).Saw other ↔ other = id ∨ search.Saw other := by
  by_cases saw : search.Saw id
  · rw [push_of_saw saw]
    constructor
    · exact .inr
    · rintro (rfl | former)
      · exact saw
      · exact former
  · rw [push_of_new saw]
    exact Listing.mem_done_insert search.seen id other

/-- What becomes of a search when nodes are put on its stack. -/
structure Pushed (search next : DepthFirst) (ids fresh : List Nat) : Prop where
  stack : next.stack = fresh ++ search.stack
  starts : next.starts = search.starts
  nodup : fresh.Nodup
  mem_fresh : ∀ id, id ∈ fresh ↔ id ∈ ids ∧ ¬ search.Saw id
  saw : ∀ id, next.Saw id ↔ search.Saw id ∨ id ∈ ids

theorem exists_pushed (search : DepthFirst) (ids : List Nat) :
    ∃ fresh, Pushed search (ids.foldl push search) ids fresh := by
  induction ids generalizing search with
  | nil =>
      exact ⟨[], { stack := rfl, starts := rfl, nodup := List.nodup_nil
                   mem_fresh := by simp, saw := by simp }⟩
  | cons id ids induction =>
      obtain ⟨fresh, pushed⟩ := induction (search.push id)
      rw [List.foldl_cons]
      by_cases saw : search.Saw id
      · rw [push_of_saw saw] at pushed ⊢
        refine ⟨fresh, { pushed with mem_fresh := ?_, saw := ?_ }⟩
        · intro other
          rw [pushed.mem_fresh, List.mem_cons]
          constructor
          · exact fun ⟨member, new⟩ => ⟨.inr member, new⟩
          · rintro ⟨rfl | member, new⟩
            · exact absurd saw new
            · exact ⟨member, new⟩
        · intro other
          rw [pushed.saw, List.mem_cons]
          constructor
          · exact fun either => either.imp_right .inr
          · rintro (former | rfl | member)
            · exact .inl former
            · exact .inl saw
            · exact .inr member
      · refine ⟨fresh ++ [id], ?_⟩
        have notFresh : id ∉ fresh := fun member =>
          ((pushed.mem_fresh id).mp member).2 (saw_push.mpr (.inl rfl))
        constructor
        · rw [pushed.stack, push_of_new saw, List.append_assoc]
          rfl
        · rw [pushed.starts, push_of_new saw]
        · exact List.nodup_append.mpr ⟨pushed.nodup, List.nodup_singleton id, by
            rintro other member _ last rfl
            rw [List.mem_singleton] at last
            exact notFresh (last ▸ member)⟩
        · intro other
          rw [List.mem_append, List.mem_singleton, pushed.mem_fresh, saw_push, List.mem_cons]
          constructor
          · rintro (⟨member, new⟩ | rfl)
            · exact ⟨.inr member, fun former => new (.inr former)⟩
            · exact ⟨.inl rfl, saw⟩
          · rintro ⟨rfl | member, new⟩
            · exact .inr rfl
            · by_cases same : other = id
              · exact .inr same
              · exact .inl ⟨member, not_or.mpr ⟨same, new⟩⟩
        · intro other
          rw [pushed.saw, saw_push, List.mem_cons]
          tauto

theorem restart_of_stack {search : DepthFirst} {id : Nat} {rest : List Nat}
    (top : search.stack = id :: rest) : search.restart = search := by
  rw [restart, top]

/-- The top of the stack of a search that was restarted: it was on top before,
or it is a start that the search had not seen. -/
theorem restart_top {search : DepthFirst} {id : Nat} {rest : List Nat}
    (top : search.restart.stack = id :: rest) :
    (search.stack = id :: rest ∧ search.restart = search) ∨
      (search.stack = [] ∧ rest = [] ∧ id ∈ search.starts ∧ ¬ search.Saw id ∧
        ∀ other, search.restart.Saw other ↔ other = id ∨ search.Saw other) := by
  cases stack : search.stack with
  | cons first others =>
      have same := restart_of_stack stack
      rw [same, stack] at top
      exact .inl ⟨top, same⟩
  | nil =>
      right
      cases left : search.starts.dropWhile search.seen.contains with
      | nil =>
          simp [restart, stack, left] at top
      | cons start starts =>
          have restarted : search.restart = { search with starts := starts }.push start := by
            simp only [restart, stack, left]
          have new : ¬ search.Saw start := by
            have head := List.head?_dropWhile_not search.seen.contains search.starts
            rw [left] at head
            exact ne_true_of_eq_false head
          have member : start ∈ search.starts :=
            (List.dropWhile_sublist _).subset (left ▸ List.mem_cons_self)
          have unseen : ¬ ({ search with starts := starts } : DepthFirst).Saw start := new
          have pushed := congrArg DepthFirst.stack (push_of_new unseen)
          rw [restarted, pushed, stack] at top
          cases top
          refine ⟨rfl, rfl, member, new, fun other => ?_⟩
          rw [restarted]
          exact saw_push

variable {Store : Type} [Network Store] {network : Store}

theorem next_eq_none_iff {search : DepthFirst} :
    search.next network = none ↔ search.restart.stack = [] := by
  rw [next]
  split <;> simp_all

/-- A call that yields a node takes it off the stack and puts those of its
fanins there that are new. -/
theorem exists_pushed_of_next {search later : DepthFirst} {id : Nat}
    (call : search.next network = some (id, later)) :
    ∃ rest fresh, search.restart.stack = id :: rest ∧
      Pushed { search.restart with stack := rest } later (children network id) fresh := by
  rw [next] at call
  split at call
  · cases call
  · rename_i top rest stack
    cases call
    obtain ⟨fresh, pushed⟩ :=
      exists_pushed { search.restart with stack := rest } (children network id)
    exact ⟨rest, fresh, stack, pushed⟩

theorem next_of_stack {search : DepthFirst} {id : Nat} {rest : List Nat}
    (top : search.restart.stack = id :: rest) :
    ∃ later, search.next network = some (id, later) := by
  rw [next, top]
  exact ⟨_, rfl⟩

/-! ### Any networks -/

theorem Sound.restart {search : DepthFirst} (sound : search.Sound) : search.restart.Sound := by
  cases stack : search.restart.stack with
  | nil => exact { nodup := by simp [stack], saw := by simp [stack] }
  | cons id rest =>
      rcases restart_top stack with ⟨_, same⟩ | ⟨_, rfl, _, _, saw⟩
      · rw [same]
        exact sound
      · refine { nodup := stack ▸ List.nodup_singleton id, saw := ?_ }
        intro other member
        rw [stack, List.mem_singleton] at member
        exact (saw other).mpr (.inl member)

theorem Pushed.sound {search later : DepthFirst} {id : Nat} {rest ids fresh : List Nat}
    (sound : search.Sound) (top : search.stack = id :: rest)
    (pushed : Pushed { search with stack := rest } later ids fresh) : later.Sound := by
  have nodup := sound.nodup
  rw [top] at nodup
  have waits : ∀ other ∈ rest, search.Saw other := fun other member =>
    sound.saw other (top ▸ List.mem_cons_of_mem id member)
  constructor
  · rw [pushed.stack]
    refine List.nodup_append.mpr ⟨pushed.nodup, nodup.of_cons, ?_⟩
    rintro other new _ waiting rfl
    exact ((pushed.mem_fresh other).mp new).2 (waits other waiting)
  · intro other member
    rw [pushed.stack, List.mem_append] at member
    rw [pushed.saw]
    rcases member with new | waiting
    · exact .inr ((pushed.mem_fresh other).mp new).1
    · exact .inl (waits other waiting)

/-- Whatever networks the calls look at, they yield different nodes, each of
them waiting or new at first, and after the last one nothing. -/
theorem Calls.exists_yielded {search : DepthFirst} {answers : List (Option Nat)}
    (calls : Calls search answers) (sound : search.Sound) :
    ∃ (ids : List Nat) (silent : Nat),
      answers = ids.map some ++ List.replicate silent none ∧ ids.Nodup ∧
        ∀ id ∈ ids, id ∈ search.stack ∨ ¬ search.Saw id := by
  induction calls with
  | nil search => exact ⟨[], 0, rfl, List.nodup_nil, by simp⟩
  | @yielded Store _ network search later id answers call _ induction =>
      obtain ⟨rest, fresh, top, pushed⟩ := exists_pushed_of_next call
      have restarted := sound.restart
      obtain ⟨ids, silent, rfl, nodup, origin⟩ := induction (pushed.sound restarted top)
      have nodupTop := restarted.nodup
      rw [top, List.nodup_cons] at nodupTop
      have topSaw : search.restart.Saw id := restarted.saw id (top ▸ List.mem_cons_self)
      -- A node that comes later was waiting below the top, or is new to the restarted search.
      have later : ∀ other ∈ ids, other ∈ rest ∨ ¬ search.restart.Saw other := by
        intro other member
        rcases origin other member with waiting | new
        · rw [pushed.stack, List.mem_append] at waiting
          exact waiting.symm.imp_right fun isFresh => ((pushed.mem_fresh other).mp isFresh).2
        · exact .inr fun former => new ((pushed.saw other).mpr (.inl former))
      refine ⟨id :: ids, silent, rfl, List.nodup_cons.mpr ⟨?_, nodup⟩, ?_⟩
      · intro again
        rcases later id again with waiting | new
        · exact nodupTop.1 waiting
        · exact new topSaw
      · have former : ∀ other, other ∈ id :: rest ∨ ¬ search.restart.Saw other →
            other ∈ search.stack ∨ ¬ search.Saw other := by
          intro other either
          rcases restart_top top with ⟨stack, same⟩ | ⟨_, rfl, _, new, saw⟩
          · rw [stack, ← same]
            exact either
          · right
            intro known
            rcases either with isTop | unknown
            · rw [List.mem_singleton] at isTop
              exact new (isTop ▸ known)
            · exact unknown ((saw other).mpr (.inr known))
        intro other member
        rcases List.mem_cons.mp member with rfl | member
        · exact former other (.inl List.mem_cons_self)
        · exact former other ((later other member).imp_left (List.mem_cons_of_mem id))
  | @ended Store _ network search answers call rest induction =>
      have silent : search.restart.stack = [] := next_eq_none_iff.mp call
      obtain ⟨ids, others, rfl, _⟩ := induction sound
      cases ids with
      | nil => exact ⟨[], others + 1, rfl, List.nodup_nil, by simp⟩
      | cons id ids =>
          exfalso
          cases rest with
          | yielded call _ =>
              obtain ⟨_, _, top, _⟩ := exists_pushed_of_next call
              rw [silent] at top
              cases top

theorem calls_answers (networks : List Store) (search : DepthFirst) :
    Calls search (search.answers networks).1 := by
  induction networks generalizing search with
  | nil => exact .nil search
  | cons network networks induction =>
      rw [answers]
      split
      · rename_i ended
        exact .ended ended (induction search)
      · rename_i id later call
        exact .yielded call (induction later)

/-! ### One network -/

/-- Calls that yield the listed nodes lead from one search to another. -/
inductive Visits (network : Store) : DepthFirst → List Nat → DepthFirst → Prop
  | refl (search : DepthFirst) : Visits network search [] search
  | step {search middle later : DepthFirst} {id : Nat} {ids : List Nat}
      (call : search.next network = some (id, middle)) (rest : Visits network middle ids later) :
      Visits network search (id :: ids) later

theorem Visits.append {search middle later : DepthFirst} {first second : List Nat}
    (visits : Visits network search first middle) (rest : Visits network middle second later) :
    Visits network search (first ++ second) later := by
  induction visits with
  | refl => exact rest
  | step call _ induction => exact .step call (induction rest)

theorem Visits.split {search later : DepthFirst} {first second : List Nat}
    (visits : Visits network search (first ++ second) later) :
    ∃ middle, Visits network search first middle ∧ Visits network middle second later := by
  induction first generalizing search with
  | nil => exact ⟨search, .refl search, visits⟩
  | cons id first induction =>
      cases visits with
      | step call rest =>
          obtain ⟨middle, visited, remaining⟩ := induction rest
          exact ⟨middle, .step call visited, remaining⟩

theorem Visits.remaining {search middle later : DepthFirst} {first ids : List Nat}
    (visits : Visits network search first middle) (whole : Visits network search ids later)
    (ended : later.next network = none) :
    ∃ rest, ids = first ++ rest ∧ Visits network middle rest later := by
  induction visits generalizing ids with
  | refl => exact ⟨ids, rfl, whole⟩
  | step call _ induction =>
      cases whole with
      | refl =>
          rw [call] at ended
          cases ended
      | step again others =>
          rw [call] at again
          cases again
          obtain ⟨rest, rfl, remaining⟩ := induction others
          exact ⟨rest, rfl, remaining⟩

theorem answers_of_ended {search : DepthFirst} (ended : search.next network = none)
    (calls : Nat) :
    (search.answers (List.replicate calls network)).1 = List.replicate calls none := by
  induction calls with
  | zero => rfl
  | succ calls induction =>
      rw [List.replicate_succ, List.replicate_succ, answers, ended]
      exact congrArg (none :: ·) induction

theorem Visits.yields {search later : DepthFirst} {ids : List Nat}
    (visits : Visits network search ids later) (ended : later.next network = none) :
    Yields network search ids := by
  induction visits with
  | refl =>
      intro calls
      simpa using answers_of_ended ended calls
  | @step search middle later id ids call _ induction =>
      intro calls
      cases calls with
      | zero => simp [answers]
      | succ calls =>
          rw [List.replicate_succ, answers, call]
          simpa using induction ended calls

theorem Visits.collect {search later : DepthFirst} {ids : List Nat}
    (visits : Visits network search ids later) (ended : later.next network = none) {steps : Nat}
    (enough : ids.length ≤ steps) : search.collect network steps = ids := by
  induction visits generalizing steps with
  | refl =>
      cases steps with
      | zero => rfl
      | succ steps => rw [DepthFirst.collect, ended]
  | step call _ induction =>
      cases steps with
      | zero => cases enough
      | succ steps =>
          rw [DepthFirst.collect, call]
          exact congrArg _ (induction ended (Nat.le_of_succ_le_succ enough))

end DepthFirst

end AndInverter
