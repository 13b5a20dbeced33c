import AndInverter.Network.Table
import AndInverter.Proofs.Traversal.Blocks

/-!
# A search explores what its starts reach

On one network a search yields the nodes below its starts and no others, each
once, and all nodes below the first starts before any other.  On any networks
it yields no node twice, and nothing after it has run dry.
-/

namespace AndInverter

open Network

namespace DepthFirst

variable {Store : Type} [Network Store] {network : Store}

def startingFrom (starts : List Nat) : DepthFirst :=
  { stack := [], seen := ∅, starts := starts }

theorem not_saw_startingFrom (starts : List Nat) (id : Nat) : ¬ (startingFrom starts).Saw id := by
  simp [Saw, startingFrom]

theorem sound_startingFrom (starts : List Nat) : (startingFrom starts).Sound :=
  { nodup := List.nodup_nil, saw := nofun }

/-! ### One start after the other -/

private theorem restart_of_saw {search : DepthFirst} {start : Nat} {starts : List Nat}
    (empty : search.stack = []) (first : search.starts = start :: starts)
    (saw : search.Saw start) :
    search.restart = { search with starts := starts }.restart := by
  have skipped : search.starts.dropWhile search.seen.contains =
      starts.dropWhile search.seen.contains := by
    rw [first, List.dropWhile_cons_of_pos saw]
  simp only [restart, empty, skipped]

private theorem restart_of_new {search : DepthFirst} {start : Nat} {starts : List Nat}
    (empty : search.stack = []) (first : search.starts = start :: starts)
    (new : ¬ search.Saw start) :
    search.restart = { search with starts := starts }.push start := by
  have kept : search.starts.dropWhile search.seen.contains = start :: starts := by
    rw [first, List.dropWhile_cons_of_neg new]
  simp only [restart, empty, kept]

/-- What a search yields depends on how it restarts only. -/
theorem Visits.of_restart {search other later : DepthFirst} {ids : List Nat}
    (same : search.restart = other.restart) (visits : Visits network search ids later)
    (ended : later.next network = none) :
    ∃ last, Visits network other ids last ∧ last.next network = none := by
  have next_eq : search.next network = other.next network := by
    rw [next, next, same]
  cases visits with
  | refl => exact ⟨other, .refl other, next_eq ▸ ended⟩
  | step call rest => exact ⟨later, .step (next_eq ▸ call) rest, ended⟩

private theorem not_reachedFrom_of_reads {done : List Nat} {source target : Nat}
    (reads : Reads network source target) (new : ¬ ReachedFrom network done target) :
    ¬ ReachedFrom network done source :=
  fun ⟨start, isStart, reaches⟩ => new ⟨start, isStart, reaches.tail reads⟩

/-- A path to a node that is not below the former starts goes around all that
is below them. -/
theorem reachesAround_iff {search : DepthFirst} {done : List Nat} {start id : Nat}
    (saw : ∀ other, search.Saw other ↔ other = start ∨ ReachedFrom network done other)
    (new : ¬ ReachedFrom network done start) :
    ReachesAround network search.Saw start id ↔
      Reaches network start id ∧ ¬ ReachedFrom network done id := by
  constructor
  · intro reaches
    refine ⟨reaches.reaches, ?_⟩
    rcases reaches.eq_or_free with rfl | free
    · exact new
    · exact fun former => free ((saw id).mpr (.inr former))
  · rintro ⟨reaches, fresh⟩
    have around : ReachesAround network (ReachedFrom network done) start id := by
      induction reaches with
      | refl => exact .refl
      | tail _ reads induction =>
          exact (induction (not_reachedFrom_of_reads reads fresh)).tail ⟨reads, fresh⟩
    exact (reachesAround_source_iff.mpr around).mono fun other known =>
      ((saw other).mp known).symm

/-- All calls of a search that begins with an empty stack, when it has seen
what lies below some former starts. -/
structure Enumerates (network : Store) (done starts : List Nat) (search : DepthFirst)
    (ids : List Nat) : Prop where
  yields : ∃ later, Visits network search ids later ∧ later.next network = none
  nodup : ids.Nodup
  mem_iff : ∀ id, id ∈ ids ↔ ReachedFrom network starts id ∧ ¬ ReachedFrom network done id
  /-- What lies below the first starts comes first. -/
  inOrder : ∀ count, ∃ earlier others, ids = earlier ++ others ∧ ∀ id, id ∈ earlier ↔
    ReachedFrom network (starts.take count) id ∧ ¬ ReachedFrom network done id

theorem Enumerates.skip {search : DepthFirst} {done starts ids : List Nat} {start : Nat}
    (enumerates : Enumerates network done starts { search with starts := starts } ids)
    (empty : search.stack = []) (first : search.starts = start :: starts)
    (saw : ∀ id, search.Saw id ↔ ReachedFrom network done id) (old : search.Saw start) :
    Enumerates network done (start :: starts) search ids := by
  obtain ⟨later, visits, ended⟩ := enumerates.yields
  obtain ⟨former, member, reaches⟩ := (saw start).mp old
  have same : ∀ some id,
      ReachedFrom network some id ∧ ¬ ReachedFrom network done id ↔
        ReachedFrom network (start :: some) id ∧ ¬ ReachedFrom network done id := by
    intro some id
    rw [reachedFrom_cons]
    constructor
    · exact fun ⟨reached, new⟩ => ⟨.inr reached, new⟩
    · rintro ⟨below | reached, new⟩
      · exact absurd ⟨former, member, reaches.trans below⟩ new
      · exact ⟨reached, new⟩
  refine ⟨visits.of_restart (restart_of_saw empty first old).symm ended, enumerates.nodup,
    fun id => (enumerates.mem_iff id).trans (same starts id), ?_⟩
  intro count
  cases count with
  | zero => exact ⟨[], ids, rfl, by simp [ReachedFrom]⟩
  | succ count =>
      obtain ⟨earlier, others, split, members⟩ := enumerates.inOrder count
      exact ⟨earlier, others, split, fun id =>
        (members id).trans (same (starts.take count) id)⟩

theorem Block.mem_start_iff {search later : DepthFirst} {done block : List Nat} {start id : Nat}
    (works : Block network search [start] [] block later)
    (saw : ∀ other, search.Saw other ↔ other = start ∨ ReachedFrom network done other)
    (new : ¬ ReachedFrom network done start) :
    id ∈ block ↔ Reaches network start id ∧ ¬ ReachedFrom network done id := by
  rw [works.mem_iff, ← reachesAround_iff saw new]
  simp

/-- A start that is new comes with all that lies below it and below no former
start. -/
theorem Enumerates.prepend {search later : DepthFirst} {done starts block ids : List Nat}
    {start : Nat} (enumerates : Enumerates network (start :: done) starts later ids)
    (top : search.restart.stack = [start]) (new : ¬ ReachedFrom network done start)
    (works : Block network search.restart [start] [] block later)
    (saw : ∀ id, search.restart.Saw id ↔ id = start ∨ ReachedFrom network done id) :
    Enumerates network done (start :: starts) search (block ++ ids) := by
  obtain ⟨last, visits, ended⟩ := enumerates.yields
  have merge : ∀ some id,
      (Reaches network start id ∧ ¬ ReachedFrom network done id) ∨
          (ReachedFrom network some id ∧ ¬ ReachedFrom network (start :: done) id) ↔
        ReachedFrom network (start :: some) id ∧ ¬ ReachedFrom network done id := by
    intro some id
    rw [reachedFrom_cons, reachedFrom_cons]
    tauto
  constructor
  · exact (works.visits.append visits).of_restart (restart_of_stack top) ended
  · refine List.nodup_append.mpr ⟨works.nodup, enumerates.nodup, ?_⟩
    rintro id early _ late rfl
    have below := ((works.mem_start_iff saw new).mp early).1
    exact ((enumerates.mem_iff id).mp late).2 (reachedFrom_cons.mpr (.inl below))
  · intro id
    rw [List.mem_append, works.mem_start_iff saw new, enumerates.mem_iff, merge]
  · intro count
    cases count with
    | zero => exact ⟨[], block ++ ids, rfl, by simp [ReachedFrom]⟩
    | succ count =>
        obtain ⟨earlier, others, rfl, listed⟩ := enumerates.inOrder count
        refine ⟨block ++ earlier, others, (List.append_assoc ..).symm, fun id => ?_⟩
        rw [List.mem_append, works.mem_start_iff saw new, listed, merge, List.take_succ_cons]

theorem exists_enumerates {search : DepthFirst} {done : List Nat} (empty : search.stack = [])
    (saw : ∀ id, search.Saw id ↔ ReachedFrom network done id) :
    ∃ ids, Enumerates network done search.starts search ids := by
  generalize first : search.starts = starts
  induction starts generalizing search done with
  | nil =>
      have ended : search.next network = none := by
        rw [next_eq_none_iff]
        simp [restart, empty, first]
      exact ⟨[], ⟨search, .refl search, ended⟩, List.nodup_nil, by simp [ReachedFrom],
        fun _ => ⟨[], [], rfl, by simp [ReachedFrom]⟩⟩
  | cons start starts induction =>
      by_cases old : search.Saw start
      · have rest : ∃ ids, Enumerates network done starts { search with starts := starts } ids :=
          induction empty saw rfl
        obtain ⟨ids, enumerates⟩ := rest
        exact ⟨ids, enumerates.skip empty first saw old⟩
      · have restarted := restart_of_new empty first old
        have unseen : ¬ ({ search with starts := starts } : DepthFirst).Saw start := old
        have top : search.restart.stack = [start] := by
          rw [restarted, push_of_new unseen, empty]
        have known : ∀ id,
            search.restart.Saw id ↔ id = start ∨ ReachedFrom network done id := by
          intro id
          rw [restarted, saw_push, ← saw]
          rfl
        have left : search.restart.starts = starts := by
          rw [restarted, push_of_new unseen]
        have sound : search.restart.Sound := by
          refine { nodup := top ▸ List.nodup_singleton start, saw := fun id member => ?_ }
          rw [top, List.mem_singleton] at member
          exact (known id).mpr (.inl member)
        have new : ¬ ReachedFrom network done start := fun below => old ((saw start).mpr below)
        have worked : ∃ block later, Block network search.restart [start] [] block later :=
          exists_block sound (top.trans rfl)
        obtain ⟨block, later, works⟩ := worked
        have below : ∀ id, later.Saw id ↔ ReachedFrom network (start :: done) id := by
          intro id
          rw [works.saw, works.mem_start_iff known new, reachedFrom_cons, known]
          constructor
          · rintro ((rfl | former) | ⟨reaches, _⟩)
            · exact .inl .refl
            · exact .inr former
            · exact .inl reaches
          · by_cases former : ReachedFrom network done id
            · exact fun _ => .inl (.inr former)
            · exact fun either => .inr ⟨either.resolve_right former, former⟩
        obtain ⟨ids, enumerates⟩ := induction works.stack below (works.starts.trans left)
        exact ⟨block ++ ids, enumerates.prepend top new works known⟩

/-! ### Whole searches -/

theorem exists_visits (network : Store) (starts : List Nat) :
    ∃ ids, Enumerates network [] starts (startingFrom starts) ids := by
  have saw : ∀ id, (startingFrom starts).Saw id ↔ ReachedFrom network [] id := by
    intro id
    have unreached : ¬ ReachedFrom network [] id := by simp [ReachedFrom]
    exact iff_of_false (not_saw_startingFrom starts id) unreached
  exact exists_enumerates rfl saw

theorem Enumerates.explores {starts ids : List Nat} {search : DepthFirst}
    (enumerates : Enumerates network [] starts search ids) : Explores network starts ids := by
  have unreached : ∀ id, ¬ ReachedFrom network [] id := by simp [ReachedFrom]
  refine ⟨enumerates.nodup, fun id => ?_, fun count => ?_⟩
  · rw [enumerates.mem_iff, and_iff_left (unreached id)]
  · obtain ⟨earlier, others, split, members⟩ := enumerates.inOrder count
    exact ⟨earlier, others, split, fun id => by rw [members, and_iff_left (unreached id)]⟩

theorem Explores.length_le {starts ids : List Nat} (explores : Explores network starts ids) :
    ids.length ≤ (startingFrom starts).stepBound network := by
  have subset : ids ⊆ starts ++ readable network := by
    intro id member
    obtain ⟨start, isStart, reaches⟩ := (explores.mem_iff id).mp member
    rcases Relation.ReflTransGen.cases_tail reaches with rfl | ⟨_, _, reads⟩
    · exact List.mem_append_left _ isStart
    · exact List.mem_append_right _ (mem_readable reads)
  have bound := (explores.nodup.subperm subset).length_le
  have rows : (readable network).length =
      ((List.range (size network)).flatMap (fanins network)).length := by
    simp [readable, children, List.length_flatMap]
  rw [List.length_append, rows] at bound
  simpa [stepBound, startingFrom] using bound

/-- A search on one network runs dry within the steps that it is given. -/
theorem enumerates_toList (network : Store) (starts : List Nat) :
    Enumerates network [] starts (startingFrom starts)
      ((startingFrom starts).toList network) := by
  obtain ⟨ids, enumerates⟩ := exists_visits network starts
  obtain ⟨later, visits, ended⟩ := enumerates.yields
  have listed : (startingFrom starts).toList network = ids :=
    visits.collect ended enumerates.explores.length_le
  exact listed ▸ enumerates

theorem Enumerates.answers {done starts ids : List Nat} {search : DepthFirst}
    (enumerates : Enumerates network done starts search ids) : Yields network search ids := by
  obtain ⟨later, visits, ended⟩ := enumerates.yields
  exact visits.yields ended

theorem Calls.namesOnce {starts : List Nat} {answers : List (Option Nat)}
    (calls : Calls (startingFrom starts) answers) : NamesOnce answers := by
  obtain ⟨ids, silent, split, nodup, _⟩ := calls.exists_yielded (sound_startingFrom starts)
  exact ⟨ids, silent, split, nodup⟩

/-- On one network a search yields exactly what is below its start, or below the
outputs in their order, each node once, and then nothing.  On any networks it
yields no node twice, and nothing once it has run dry. -/
theorem search_exact :
    (∀ (Store : Type) [Network Store] (network : Store) (start : Nat),
      Yields network (fromNode start) ((fromNode start).toList network) ∧
        ((fromNode start).toList network).Nodup ∧
          ∀ id, id ∈ (fromNode start).toList network ↔ Reaches network start id) ∧
    (∀ (Store : Type) [Network Store] (network : Store),
      Yields network (fromOutputs network) ((fromOutputs network).toList network) ∧
        Explores network (roots network) ((fromOutputs network).toList network)) ∧
    (∀ start answers, Calls (fromNode start) answers → NamesOnce answers) ∧
    ∀ (Store : Type) [Network Store] (network : Store) answers,
      Calls (fromOutputs network) answers → NamesOnce answers := by
  refine ⟨?_, ?_, ?_, ?_⟩
  · intro Store _ network start
    have enumerates := enumerates_toList network [start]
    refine ⟨enumerates.answers, enumerates.nodup,
      fun id => (enumerates.explores.mem_iff id).trans ?_⟩
    simp [ReachedFrom]
  · intro Store _ network
    have enumerates := enumerates_toList network (roots network)
    exact ⟨enumerates.answers, enumerates.explores⟩
  · intro start answers calls
    have begun : Calls (startingFrom [start]) answers := calls
    exact begun.namesOnce
  · intro Store _ network answers calls
    have begun : Calls (startingFrom (roots network)) answers := calls
    exact begun.namesOnce

/-- Nodes 1 and 2 read each other, node 3 reads itself and a node beyond the
table, and one output comes twice. -/
def tangledTable : FaninTable :=
  { rows := #[[], [.plain 2, .plain 3, .plain 2], [.plain 1, .plain 0],
      [(Edge.plain 3).not, .plain 7]]
    outputs := [.plain 3, .plain 2, (Edge.plain 3).not] }

/-- A search survives cycles and repeated fanins.  If calls look at the empty
network in turn, nodes are missed but none is repeated. -/
theorem search_exact_tangled :
    Yields tangledTable (fromNode 1) [1, 3, 7, 2, 0] ∧
    (∀ id, id ∈ [1, 3, 7, 2, 0] ↔ Reaches tangledTable 1 id) ∧
    Explores tangledTable [3, 2, 3] [3, 7, 2, 0, 1] ∧
    ∃ answers, Calls (fromOutputs tangledTable) answers ∧
      answers = [some 3, some 2, some 0, some 1, none, none] ∧ NamesOnce answers := by
  obtain ⟨fromOne, fromRoots, _, named⟩ := search_exact
  obtain ⟨yields, _, members⟩ := fromOne FaninTable tangledTable 1
  obtain ⟨_, explores⟩ := fromRoots FaninTable tangledTable
  have listed : (fromNode 1).toList tangledTable = [1, 3, 7, 2, 0] := by decide +kernel
  have listed' : (fromOutputs tangledTable).toList tangledTable = [3, 7, 2, 0, 1] := by
    decide +kernel
  rw [listed] at yields members
  rw [listed'] at explores
  let networks := [{ rows := #[], outputs := [] }, tangledTable, { rows := #[], outputs := [] },
    tangledTable, tangledTable, tangledTable]
  have answered : ((fromOutputs tangledTable).answers networks).1 =
      [some 3, some 2, some 0, some 1, none, none] := by
    decide +kernel
  have calls := calls_answers networks (fromOutputs tangledTable)
  rw [answered] at calls
  exact ⟨yields, members, explores, _, calls, rfl, named FaninTable tangledTable _ calls⟩

end DepthFirst

end AndInverter
