import AndInverter.Aig.Integrity
import AndInverter.Proofs.Aig.Sessions
import AndInverter.Proofs.Traversal.Exploration

/-!
# The order of a search

A search marks nodes when it puts them on its stack.  So what follows a node at
once is what it reaches around the nodes listed before and around those that
wait, which the listed ones read.  The order is a preorder as long as no node
reaches one that waits, and not in general.
-/

namespace AndInverter

open Network

namespace DepthFirst

variable {Store : Type} [Network Store] {network : Store}

/-- When a node is about to be yielded, it and the nodes seen before the call
are all that was seen. -/
theorem Sound.saw_restart_iff {search : DepthFirst} {id : Nat} {rest : List Nat}
    (sound : search.Sound) (top : search.restart.stack = id :: rest) (other : Nat) :
    search.restart.Saw other ↔ search.Saw other ∨ other = id := by
  rcases restart_top top with ⟨stack, same⟩ | ⟨_, _, _, _, saw⟩
  · rw [same]
    constructor
    · exact .inl
    · rintro (known | rfl)
      · exact known
      · exact sound.saw other (stack ▸ List.mem_cons_self)
  · rw [saw]
    exact or_comm

private theorem met_append_singleton {listed : List Nat} {id other : Nat} :
    Met network (listed ++ [id]) other ↔
      (Met network listed other ∨ other = id) ∨ Reads network id other := by
  simp only [Met, List.mem_append, List.mem_singleton, or_and_right, exists_or, exists_eq_left]
  rw [or_or_or_comm, or_assoc, or_assoc, or_assoc]

/-- Between two calls, a search has seen the nodes that it has listed and the
nodes that these read. -/
theorem Visits.met {search later : DepthFirst} {listed ids : List Nat}
    (visits : Visits network search ids later) (sound : search.Sound)
    (met : ∀ id, search.Saw id ↔ Met network listed id) :
    later.Sound ∧ ∀ id, later.Saw id ↔ Met network (listed ++ ids) id := by
  induction visits generalizing listed with
  | refl => simpa using ⟨sound, met⟩
  | @step search middle later id ids call _ induction =>
      obtain ⟨rest, fresh, top, pushed⟩ := exists_pushed_of_next call
      have known : ∀ other, middle.Saw other ↔ Met network (listed ++ [id]) other := by
        intro other
        rw [pushed.saw, met_append_singleton, ← met, ← sound.saw_restart_iff top]
        rfl
      rw [← List.singleton_append, ← List.append_assoc]
      exact induction (pushed.sound sound.restart top) known

theorem exists_visits_block {search : DepthFirst} {id : Nat} {rest : List Nat}
    (sound : search.Sound) (top : search.restart.stack = id :: rest) :
    ∃ block later, Visits network search (id :: block) later ∧
      ∀ other, other ∈ block ↔ other ≠ id ∧ ReachesAround network search.Saw id other := by
  have worked : ∃ ids later, Block network search.restart [id] rest ids later :=
    exists_block sound.restart (top.trans rfl)
  obtain ⟨ids, later, works⟩ := worked
  have members : ∀ other, other ∈ ids ↔ ReachesAround network search.Saw id other := by
    intro other
    have blocked : search.restart.Saw = fun other => search.Saw other ∨ other = id :=
      funext fun other => propext (sound.saw_restart_iff top other)
    rw [works.mem_iff, blocked, ← reachesAround_source_iff]
    simp
  have again : search.restart.restart = search.restart := restart_of_stack top
  cases visits : works.visits with
  | refl => exact absurd ((members id).mpr .refl) List.not_mem_nil
  | @step _ middle _ first block call others =>
      obtain ⟨_, _, stack, _⟩ := exists_pushed_of_next call
      rw [again, top] at stack
      cases stack
      have called : search.next network = some (id, middle) := by
        rw [next, ← again]
        exact call
      have nodup := List.nodup_cons.mp works.nodup
      refine ⟨block, later, .step called others, fun other => ?_⟩
      rw [← members, List.mem_cons]
      constructor
      · intro member
        exact ⟨fun same => nodup.1 (same ▸ member), .inr member⟩
      · intro both
        exact both.2.resolve_left both.1

theorem Enumerates.blockwise {starts ids : List Nat}
    (enumerates : Enumerates network [] starts (startingFrom starts) ids) :
    Blockwise network ids := by
  rintro earlier id rest rfl
  obtain ⟨later, visits, ended⟩ := enumerates.yields
  obtain ⟨middle, former, remaining⟩ := visits.split
  have begun : ∀ other, (startingFrom starts).Saw other ↔ Met network [] other :=
    fun other => iff_of_false (not_saw_startingFrom starts other) (by simp [Met])
  obtain ⟨sound, met⟩ := former.met (sound_startingFrom starts) begun
  have blocked : middle.Saw = Met network earlier :=
    funext fun other => propext (met other)
  cases remaining with
  | step call others =>
      obtain ⟨_, _, top, _⟩ := exists_pushed_of_next call
      have followed : ∃ block last, Visits network middle (id :: block) last ∧
          ∀ other, other ∈ block ↔ other ≠ id ∧ ReachesAround network middle.Saw id other :=
        exists_visits_block sound top
      obtain ⟨block, last, worked, members⟩ := followed
      obtain ⟨after, split, _⟩ := worked.remaining (.step call others) ended
      rw [blocked] at members
      exact ⟨block, after, List.cons.inj split |>.2, members⟩

theorem BeginsBelow.preorder {earlier rest : List Nat} {id : Nat}
    (begins : BeginsBelow network (Met network earlier) id rest)
    (clear : ∀ other, other ≠ id → Met network earlier other →
      ¬ ReachesAround network (· ∈ earlier) id other) :
    BeginsBelow network (· ∈ earlier) id rest := by
  obtain ⟨block, others, split, members⟩ := begins
  have around : ∀ other, ReachesAround network (· ∈ earlier) id other →
      ReachesAround network (Met network earlier) id other := by
    intro other reaches
    induction reaches with
    | refl => exact .refl
    | @tail middle target path step induction =>
        by_cases back : target = id
        · rw [back]
          exact .refl
        · exact induction.tail ⟨step.1, fun met => clear target back met (path.tail step)⟩
  refine ⟨block, others, split, fun other => (members other).trans (and_congr_right fun _ => ?_)⟩
  exact ⟨fun reaches => reaches.mono fun _ => .inl, around other⟩

/-- Whatever is listed before a node, all that the node reaches around it and
around the nodes that wait follows at once.  If no node that waits is below the
node, this is all that is below it, as in a preorder. -/
theorem search_blockwise :
    ∀ (Store : Type) [Network Store] (network : Store) (search : DepthFirst),
      (∃ start, search = fromNode start) ∨ search = fromOutputs network →
      Yields network search (search.toList network) ∧
        Blockwise network (search.toList network) ∧
        ∀ earlier id rest, search.toList network = earlier ++ id :: rest →
          (∀ other, other ≠ id → Met network earlier other →
            ¬ ReachesAround network (· ∈ earlier) id other) →
          BeginsBelow network (· ∈ earlier) id rest := by
  intro Store _ network search origin
  have begun : ∃ starts, search = startingFrom starts := by
    rcases origin with ⟨start, rfl⟩ | rfl
    · exact ⟨[start], rfl⟩
    · exact ⟨roots network, rfl⟩
  obtain ⟨starts, rfl⟩ := begun
  have enumerates := enumerates_toList network starts
  have blockwise := enumerates.blockwise
  refine ⟨enumerates.answers, blockwise, fun earlier id rest split clear => ?_⟩
  exact (blockwise earlier id rest split).preorder clear

/-- Input 1 is read by the output's gate and, two gates below it, by gate 4. -/
def reconvergentSession : List Operation :=
  [.addInput, .addInput, .addInput, .createAnd (.plain 1) (.plain 2),
    .createAnd (.plain 3) (.plain 4), .createAnd (.plain 1) (.plain 5), .addOutput (.plain 6)]

/-- When gate 4 comes, input 1 waits already: input 2 alone follows gate 4, and
input 1 comes last. -/
theorem search_blockwise_reconvergent : ∃ aig : Aig, aig.Reachable ∧
    Yields aig (fromOutputs aig) [6, 5, 4, 2, 3, 1] ∧ Blockwise aig [6, 5, 4, 2, 3, 1] := by
  have checked : (do
      let ended ← Aig.empty.session reconvergentSession
      return decide ((fromOutputs ended.1).toList ended.1 = [6, 5, 4, 2, 3, 1])) =
        .ok true := by
    decide +kernel
  obtain ⟨⟨aig, log⟩, ended, results⟩ := bind_eq_ok.mp checked
  have listed : (fromOutputs aig).toList aig = [6, 5, 4, 2, 3, 1] :=
    of_decide_eq_true (Except.ok.inj results)
  obtain ⟨yields, blockwise, _⟩ := search_blockwise Aig aig (fromOutputs aig) (.inr rfl)
  rw [listed] at yields blockwise
  exact ⟨aig, Aig.evolves_of_session ended, yields, blockwise⟩

/-- In the block of a node, whatever comes before a node that it reaches is
reached as well. -/
theorem BeginsBelow.reaches_of_before {blocked : Nat → Prop} {id other : Nat}
    {between rest : List Nat}
    (begins : BeginsBelow network blocked id (between ++ other :: rest))
    (different : other ≠ id) (reaches : ReachesAround network blocked id other)
    (later : other ∉ between) : ∀ middle ∈ between, ReachesAround network blocked id middle := by
  obtain ⟨block, others, split, members⟩ := begins
  have inside : other ∈ block := (members other).mpr ⟨different, reaches⟩
  intro middle member
  rcases List.append_eq_append_iff.mp split with ⟨more, rfl, _⟩ | ⟨more, rfl, _⟩
  · exact ((members middle).mp (List.mem_append_left more member)).2
  · exact absurd (List.mem_append_left more inside) later

/-- A node that is reached from a gate at once can come after one that the gate
does not reach, because it was waiting. -/
theorem not_preorder : ∃ aig : Aig, aig.Reachable ∧ aig.checkIntegrity = .ok () ∧
    ∃ ids, Yields aig (fromOutputs aig) ids ∧ Yields aig (fromNode 6) ids ∧
      ¬ Preorder aig ids := by
  have checked : (do
      let ended ← Aig.empty.session reconvergentSession
      let _ ← ended.1.checkIntegrity
      return decide ((fromOutputs ended.1).toList ended.1 = [6, 5, 4, 2, 3, 1] ∧
        (fromNode 6).toList ended.1 = [6, 5, 4, 2, 3, 1] ∧ children ended.1 4 = [1, 2] ∧
        children ended.1 1 = [] ∧ children ended.1 2 = [])) = .ok true := by
    decide +kernel
  obtain ⟨⟨aig, log⟩, ended, rest⟩ := bind_eq_ok.mp checked
  obtain ⟨_, sound, results⟩ := bind_eq_ok.mp rest
  obtain ⟨listed, listed', gate, first, second⟩ := of_decide_eq_true (Except.ok.inj results)
  have fromRoots : Yields aig (fromOutputs aig) [6, 5, 4, 2, 3, 1] :=
    listed ▸ (enumerates_toList aig (roots aig)).answers
  have fromGate : Yields aig (fromNode 6) [6, 5, 4, 2, 3, 1] :=
    listed' ▸ (enumerates_toList aig [6]).answers
  refine ⟨aig, Aig.evolves_of_session ended, sound, _, fromRoots, fromGate, fun preorder => ?_⟩
  have begins : BeginsBelow aig (· ∈ [6, 5]) 4 ([2, 3] ++ 1 :: []) :=
    preorder [6, 5] 4 [2, 3, 1] rfl
  have reads : Reads aig 4 1 := by simp [Reads, gate]
  have reaches : ReachesAround aig (· ∈ [6, 5]) 4 3 :=
    begins.reaches_of_before (by decide) (.single ⟨reads, by decide⟩) (by decide) 3 (by decide)
  -- Gate 4 reaches nothing but its two inputs.
  rcases Relation.ReflTransGen.cases_head reaches.reaches with same | ⟨child, isChild, rest⟩
  · cases same
  · rw [Reads, gate] at isChild
    have either : child = 1 ∨ child = 2 := by simpa using isChild
    have leaf : children aig child = [] := by
      rcases either with rfl | rfl
      · exact first
      · exact second
    rcases Relation.ReflTransGen.cases_head rest with rfl | ⟨_, below, _⟩
    · rcases either with same | same <;> cases same
    · rw [Reads, leaf] at below
      cases below

end DepthFirst

end AndInverter
