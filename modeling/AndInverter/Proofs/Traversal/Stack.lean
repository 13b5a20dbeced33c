import AndInverter.Network.Table
import AndInverter.Proofs.Traversal.Topological
import AndInverter.Traversal.Stack

/-!
# The sort is exact

A run over one stack ends as the sort along paths does: the nodes in progress
are those of the path, and what lies above a node on the stack leads to its
fanins.  Over a closed table the outcome is the order of all that lies below
the roots or, if there is a cycle there, a node of such a cycle.
-/

namespace AndInverter

open Network

variable {Store : Type} [Network Store] {network : Store}

namespace StackSort

theorem Runs.unique {sort : StackSort} {first second : Except Failure (List Nat)}
    (left : Runs network sort first) (right : Runs network sort second) : first = second := by
  induction left generalizing second with
  | ended empty =>
      cases right with
      | ended _ => rfl
      | step top _ _ => cases empty.symm.trans top
      | failed top _ => cases empty.symm.trans top
  | step top performed _ induction =>
      cases right with
      | ended empty => cases empty.symm.trans top
      | step top' performed' runs' =>
          cases top.symm.trans top'
          cases performed.symm.trans performed'
          exact induction runs'
      | failed top' performed' =>
          cases top.symm.trans top'
          cases performed.symm.trans performed'
  | failed top performed =>
      cases right with
      | ended empty => cases empty.symm.trans top
      | step top' performed' _ =>
          cases top.symm.trans top'
          cases performed.symm.trans performed'
      | failed top' performed' =>
          cases top.symm.trans top'
          cases performed.symm.trans performed'
          rfl

/-! ### Paths and marks -/

/-- The marks that belong to a path and the nodes listed so far. -/
def marksOf (path : List Nat) (listing : Listing) (id : Nat) : Mark :=
  if listing.done.contains id then .done
  else if path.contains id then .inProgress
  else .new

/-- A sort on the way down a path, with the given tasks. -/
def along (path : List Nat) (listing : Listing) (stack : List Task) : StackSort :=
  { stack := stack, marks := marksOf path listing, latest := listing.latest }

private theorem update_marksOf_inProgress {path : List Nat} {listing : Listing} {id : Nat}
    (unlisted : ¬ listing.done.contains id = true) :
    Function.update (marksOf path listing) id .inProgress = marksOf (id :: path) listing := by
  funext other
  by_cases same : other = id
  · subst same
    simp [marksOf, unlisted]
  · simp [marksOf, same]

private theorem update_marksOf_done (path : List Nat) (listing : Listing) (id : Nat) :
    Function.update (marksOf (id :: path) listing) id .done = marksOf path (listing.add id) := by
  funext other
  have listed := Listing.mem_done_insert listing.done id other
  by_cases same : other = id
  · subst same
    have here : (listing.add other).done.contains other = true := listed.mpr (.inl rfl)
    rw [Function.update_self, marksOf, if_pos here]
  · have before : (listing.add id).done.contains other = listing.done.contains other := by
      rw [Bool.eq_iff_iff]
      exact listed.trans (or_iff_right same)
    rw [Function.update_of_ne same, marksOf, marksOf, before]
    simp [same]

private theorem marksOf_eq_done_iff {path : List Nat} {listing : Listing} {id : Nat} :
    marksOf path listing id = .done ↔ listing.done.contains id = true := by
  unfold marksOf
  split
  · rename_i listed
    exact iff_of_true rfl listed
  · rename_i unlisted
    split <;> exact iff_of_false nofun unlisted

section Look

variable {path : List Nat} {listing : Listing} {id : Nat} (stack : List Task)

private theorem perform_look_of_listed (inside : id < size network)
    (listed : listing.done.contains id = true) :
    perform network (along path listing stack) (.look id) = .ok (along path listing stack) := by
  have mark : (along path listing stack).marks id = .done := marksOf_eq_done_iff.mpr listed
  rw [perform, if_neg (Nat.not_le_of_lt inside), mark]

private theorem perform_look_of_onPath (inside : id < size network)
    (unlisted : ¬ listing.done.contains id = true) (onPath : path.contains id = true) :
    perform network (along path listing stack) (.look id) = .error (.fault (.cycle id)) := by
  have mark : (along path listing stack).marks id = .inProgress := by
    show marksOf path listing id = _
    rw [marksOf, if_neg unlisted, if_pos onPath]
  rw [perform, if_neg (Nat.not_le_of_lt inside), mark]

private theorem perform_look_of_new (inside : id < size network)
    (unlisted : ¬ listing.done.contains id = true) (offPath : ¬ path.contains id = true) :
    perform network (along path listing stack) (.look id) =
      if (children network id).any (size network ≤ ·) then .error .assertion
      else .ok (along (id :: path) listing
        (((children network id).reverse.filter (!listing.done.contains ·)).map .look ++
          .list id :: stack)) := by
  have mark : (along path listing stack).marks id = .new := by
    show marksOf path listing id = _
    rw [marksOf, if_neg unlisted, if_neg offPath]
  have marks : Function.update (along path listing stack).marks id .inProgress =
      marksOf (id :: path) listing := update_marksOf_inProgress unlisted
  have pushed : (children network id).filter (marksOf (id :: path) listing · ≠ .done) =
      (children network id).filter (!listing.done.contains ·) := by
    apply List.filter_congr
    intro child _
    cases listed : listing.done.contains child with
    | true =>
        rw [marksOf_eq_done_iff.mpr listed]
        rfl
    | false =>
        have undone : marksOf (id :: path) listing child ≠ .done := by
          rw [ne_eq, marksOf_eq_done_iff, listed]
          exact Bool.false_ne_true
        rw [decide_eq_true undone]
        rfl
  rw [perform, if_neg (Nat.not_le_of_lt inside), mark]
  dsimp only
  rw [marks, pushed, List.filter_reverse]
  rfl

end Look

/-- A sort goes on with the given tasks once visits have had this result, and
their failures end it.  Visits do not run out of depth. -/
def GoesOn (network : Store) (path : List Nat) (stack : List Task)
    (outcome : Except Failure (List Nat)) : Except Failure Listing → Prop
  | .ok listing => Runs network (along path listing stack) outcome
  | .error failure => failure ≠ .exhausted ∧ outcome = .error failure

private theorem visit_of_listed {depth : Nat} {path : List Nat} {listing : Listing} {id : Nat}
    (sound : Listing.Sound network listing) (listed : id ∈ listing.latest) :
    Listing.visit network (depth + 1) path listing id = .ok listing := by
  have inside := sound.ordered.lt_size listed
  rw [Listing.visit, if_neg (Nat.not_le_of_lt inside), if_pos ((sound.done id).mpr listed)]

theorem runs_foldlM {depth : Nat} {path starts : List Nat} {stack : List Task}
    {listing : Listing} {keep : Nat → Bool} {outcome : Except Failure (List Nat)}
    (looked : ∀ start listing stack outcome, Listing.Sound network listing →
      GoesOn network path stack outcome (Listing.visit network depth path listing start) →
      Runs network (along path listing (.look start :: stack)) outcome)
    (sound : Listing.Sound network listing)
    (skipped : ∀ start ∈ starts, keep start = false → start ∈ listing.latest)
    (goesOn : GoesOn network path stack outcome
      (starts.foldlM (Listing.visit network depth path) listing)) :
    Runs network (along path listing ((starts.filter keep).map .look ++ stack)) outcome := by
  induction starts generalizing listing with
  | nil => exact goesOn
  | cons start starts induction =>
      rw [List.forall_mem_cons] at skipped
      rw [List.foldlM_cons] at goesOn
      cases kept : keep start with
      | true =>
          rw [List.filter_cons_of_pos kept]
          apply looked start listing _ outcome sound
          cases visited : Listing.visit network depth path listing start with
          | error failure =>
              rw [visited] at goesOn
              exact goesOn
          | ok next =>
              rw [visited] at goesOn
              have lists := Listing.visit_lists visited sound
              obtain ⟨added, grown, _⟩ := lists.added
              refine induction lists.sound (fun other member dropped => ?_) goesOn
              rw [grown]
              exact List.mem_append_right _ (skipped.2 other member dropped)
      | false =>
          rw [List.filter_cons_of_neg (by simp [kept])]
          cases depth with
          | zero => exact absurd rfl goesOn.1
          | succ depth =>
              rw [visit_of_listed sound (skipped.1 kept)] at goesOn
              exact induction sound skipped.2 goesOn

/-- Looking at a node does what a visit does.  The induction is on the depth
that the visit may take: what a node pushes is dealt with one level down, and
then the node is on top again. -/
theorem runs_look {depth : Nat} {path : List Nat} {stack : List Task} {listing : Listing}
    {id : Nat} {outcome : Except Failure (List Nat)} (sound : Listing.Sound network listing)
    (goesOn : GoesOn network path stack outcome (Listing.visit network depth path listing id)) :
    Runs network (along path listing (.look id :: stack)) outcome := by
  induction depth generalizing path stack listing id outcome with
  | zero => exact absurd rfl goesOn.1
  | succ depth induction =>
      rw [Listing.visit] at goesOn
      by_cases beyond : size network ≤ id
      · rw [if_pos beyond] at goesOn
        obtain ⟨_, rfl⟩ := goesOn
        exact .failed rfl (if_pos beyond)
      have inside : id < size network := Nat.lt_of_not_le beyond
      rw [if_neg beyond] at goesOn
      by_cases listed : listing.done.contains id = true
      · rw [if_pos listed] at goesOn
        exact .step rfl (perform_look_of_listed stack inside listed) goesOn
      rw [if_neg listed] at goesOn
      by_cases onPath : path.contains id = true
      · rw [if_pos onPath] at goesOn
        obtain ⟨_, rfl⟩ := goesOn
        exact .failed rfl (perform_look_of_onPath stack inside listed onPath)
      rw [if_neg onPath] at goesOn
      dsimp only at goesOn
      have looked := perform_look_of_new stack inside listed onPath
      by_cases leaving : (children network id).any (size network ≤ ·) = true
      · rw [if_pos leaving] at goesOn looked
        obtain ⟨_, rfl⟩ := goesOn
        exact .failed rfl looked
      rw [if_neg leaving] at goesOn looked
      refine .step rfl looked (runs_foldlM (fun _ _ _ _ => induction) sound ?_ ?_)
      · intro child _ dropped
        exact (sound.done child).mp (by simpa using dropped)
      · -- Below the node, the visits leave its own task on top.
        cases visited : (children network id).reverse.foldlM
            (Listing.visit network depth (id :: path)) listing with
        | error failure =>
            rw [visited] at goesOn
            exact goesOn
        | ok next =>
            rw [visited] at goesOn
            refine .step rfl rfl ?_
            show Runs network { stack := stack, marks := _, latest := id :: next.latest } outcome
            rw [along, update_marksOf_done]
            exact goesOn

/-- Started on the roots, the sort over one stack ends as the sort along paths
does, and in no other way. -/
theorem runs_start_iff {roots : List Nat}
    (bounded : topologicalSort network roots ≠ .error .exhausted)
    {outcome : Except Failure (List Nat)} :
    Runs network (start roots) outcome ↔ outcome = topologicalSort network roots := by
  have runs : Runs network (start roots) (topologicalSort network roots) := by
    have begins : start roots =
        along [] Listing.empty ((roots.filter fun _ => true).map .look ++ []) := by
      have marks : marksOf [] Listing.empty = fun _ => .new := by
        funext id
        simp [marksOf, Listing.empty]
      rw [List.filter_true, List.append_nil, along, marks]
      rfl
    have goesOn : GoesOn network [] [] (topologicalSort network roots)
        (roots.foldlM (Listing.visit network (size network + 1) []) Listing.empty) := by
      rw [topologicalSort] at bounded ⊢
      cases visited : roots.foldlM (Listing.visit network (size network + 1) [])
          Listing.empty with
      | error failure =>
          rw [visited] at bounded
          exact ⟨fun exhausted => bounded (exhausted ▸ rfl), rfl⟩
      | ok listing => exact .ended rfl
    rw [begins]
    exact runs_foldlM (fun _ _ _ _ => runs_look) (Listing.sound_empty network)
      (fun _ _ dropped => Bool.noConfusion dropped) goesOn
  constructor
  · exact fun other => other.unique runs
  · rintro rfl
    exact runs

end StackSort

/-- Over a closed table, the sort over one stack ends, with the one outcome
that the sort has.  That is an order exactly if no cycle lies below the roots:
it lists the nodes below the roots and no others, each once and after all its
fanins.  The only other outcome is the report of a cycle there. -/
theorem topologicalSort_exact {roots : List Nat} (closed : Closed network)
    (inside : ∀ root ∈ roots, root < size network) :
    (∀ outcome, StackSort.Runs network (.start roots) outcome ↔
      outcome = topologicalSort network roots) ∧
    ((∃ order, topologicalSort network roots = .ok order) ↔
      ∀ id, ReachedFrom network roots id → ¬ OnCycle network id) ∧
    (∀ order, topologicalSort network roots = .ok order →
      order.Nodup ∧ (∀ id, id ∈ order ↔ ReachedFrom network roots id) ∧
      ∀ before id after, order = before ++ id :: after →
        ∀ child, Reads network id child → child ∈ before) ∧
    ∀ failure, topologicalSort network roots = .error failure →
      ∃ id, ReachedFrom network roots id ∧ OnCycle network id ∧
        failure = .error (.invalidState (.cycle id)) := by
  have outcomes := topologicalSort_ok_or_cycle closed inside
  refine ⟨fun outcome => StackSort.runs_start_iff ?_, ⟨?_, ?_⟩, ?_, ?_⟩
  · rcases outcomes with ⟨order, sorted⟩ | ⟨id, _, _, failed⟩
    · rw [sorted]
      exact nofun
    · rw [failed]
      exact nofun
  · rintro ⟨order, sorted⟩ id reached
    obtain ⟨ordered, members⟩ := ordered_of_topologicalSort sorted
    exact ordered.not_onCycle (List.mem_reverse.mpr ((members id).mpr reached))
  · intro acyclic
    rcases outcomes with sorted | ⟨id, reached, cycle, _⟩
    · exact sorted
    · exact absurd cycle (acyclic id reached)
  · intro order sorted
    obtain ⟨ordered, members⟩ := ordered_of_topologicalSort sorted
    refine ⟨List.nodup_reverse.mp ordered.nodup, members, ?_⟩
    rintro before id after rfl child reads
    rw [List.reverse_append, List.reverse_cons, List.append_assoc] at ordered
    exact List.mem_reverse.mp (ordered.mem_of_split reads)
  · intro failure failed
    rcases outcomes with ⟨order, sorted⟩ | ⟨id, reached, cycle, reported⟩
    · cases sorted.symm.trans failed
    · cases reported.symm.trans failed
      exact ⟨id, reached, cycle, rfl⟩

theorem FaninTable.closed_of_rows {table : FaninTable}
    (rows : ∀ row ∈ table.rows, ∀ edge ∈ row, edge.node < table.rows.size) : Closed table := by
  intro id child reads
  obtain ⟨edge, member, rfl⟩ := List.mem_map.mp reads
  have listed : edge ∈ table.row id := member
  have present : table.row id ≠ [] := List.ne_nil_of_mem listed
  have inside : id < table.rows.size :=
    Nat.lt_of_not_le fun beyond => present (FaninTable.row_of_size_le beyond)
  have stored : table.row id = table.rows[id] := by
    simp [FaninTable.row, Array.getD, inside]
  rw [stored] at listed
  exact rows table.rows[id] (Array.getElem_mem inside) edge listed

/-- Node 4 reads node 3 twice and node 2, which node 3 reads too; nodes 5 and
6 read each other. -/
def reconvergentTable : FaninTable :=
  { rows := #[[], [], [.plain 0, (Edge.plain 1).not, .plain 0], [.plain 2, (Edge.plain 1).not],
      [.plain 3, .plain 2, (Edge.plain 3).not], [.plain 4, .plain 6], [.plain 5]]
    outputs := [] }

/-- Repeated fanins and roots are no cycle, and one that the roots do not reach
does not matter. -/
theorem topologicalSort_exact_reconvergent :
    (∀ outcome, StackSort.Runs reconvergentTable (.start [4, 2, 4]) outcome ↔
      outcome = .ok [1, 0, 2, 3, 4]) ∧
    (∀ id, ReachedFrom reconvergentTable [4, 2, 4] id → ¬ OnCycle reconvergentTable id) ∧
    (∀ id, id ∈ [1, 0, 2, 3, 4] ↔ ReachedFrom reconvergentTable [4, 2, 4] id) ∧
    StackSort.Runs reconvergentTable (.start [4, 5]) (.error (.fault (.cycle 5))) ∧
      ∃ id, ReachedFrom reconvergentTable [4, 5] id ∧ OnCycle reconvergentTable id := by
  have closed : Closed reconvergentTable := FaninTable.closed_of_rows (by decide)
  have sorted : topologicalSort reconvergentTable [4, 2, 4] = .ok [1, 0, 2, 3, 4] := by
    decide +kernel
  have failed : topologicalSort reconvergentTable [4, 5] = .error (.fault (.cycle 5)) := by
    decide +kernel
  have inside : ∀ root ∈ [4, 2, 4], root < size reconvergentTable := by decide
  have inside' : ∀ root ∈ [4, 5], root < size reconvergentTable := by decide
  obtain ⟨runs, acyclic, listed, _⟩ := topologicalSort_exact closed inside
  obtain ⟨stops, _, _, reported⟩ := topologicalSort_exact closed inside'
  rw [sorted] at runs
  refine ⟨runs, acyclic.mp ⟨_, sorted⟩, (listed _ sorted).2.1, (stops _).mpr failed.symm, ?_⟩
  obtain ⟨id, reached, cycle, _⟩ := reported _ failed
  exact ⟨id, reached, cycle⟩

end AndInverter
