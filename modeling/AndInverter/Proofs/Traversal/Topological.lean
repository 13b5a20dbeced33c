import AndInverter.Network.Reachability
import AndInverter.Traversal.Topological
import Mathlib.Data.List.Nodup
import Mathlib.Data.List.Perm.Subperm

/-!
# Topological orders

A sort that succeeds lists the nodes below its roots, each once and after its
fanins, so no cycle is below the roots.  Conversely, a sort over a closed
table can fail for a cycle only: the path never grows longer than the table.
-/

namespace AndInverter

namespace Network

variable {Store : Type} [Network Store]

/-- Nodes of the table, the latest one first, none of them twice and each
after its fanins. -/
inductive Ordered (network : Store) : List Nat → Prop
  | nil : Ordered network []
  | cons {id : Nat} {rest : List Nat} (inside : id < size network) (fresh : id ∉ rest)
      (below : ∀ child, Reads network id child → child ∈ rest)
      (ordered : Ordered network rest) : Ordered network (id :: rest)

theorem Ordered.nodup {network : Store} {nodes : List Nat}
    (ordered : Ordered network nodes) : nodes.Nodup := by
  induction ordered with
  | nil => exact List.nodup_nil
  | cons _ fresh _ _ induction => exact List.nodup_cons.mpr ⟨fresh, induction⟩

theorem Ordered.lt_size {network : Store} {nodes : List Nat}
    (ordered : Ordered network nodes) {id : Nat} (member : id ∈ nodes) :
    id < size network := by
  induction ordered with
  | nil => cases member
  | cons inside _ _ _ induction =>
      rcases List.mem_cons.mp member with rfl | later
      · exact inside
      · exact induction later

theorem Ordered.reads_mem {network : Store} {nodes : List Nat}
    (ordered : Ordered network nodes) {id child : Nat} (member : id ∈ nodes)
    (reads : Reads network id child) : child ∈ nodes := by
  induction ordered with
  | nil => cases member
  | cons _ _ below _ induction =>
      apply List.mem_cons_of_mem
      rcases List.mem_cons.mp member with rfl | later
      · exact below child reads
      · exact induction later

theorem Ordered.exists_split {network : Store} {nodes : List Nat}
    (ordered : Ordered network nodes) {id : Nat} (member : id ∈ nodes) :
    ∃ later earlier, nodes = later ++ id :: earlier ∧
      ∀ child, Reads network id child → child ∈ earlier := by
  induction ordered with
  | nil => cases member
  | @cons latest rest _ _ below _ induction =>
      rcases List.mem_cons.mp member with rfl | older
      · exact ⟨[], rest, rfl, below⟩
      · obtain ⟨later, earlier, rfl, reads⟩ := induction older
        exact ⟨latest :: later, earlier, rfl, reads⟩

theorem Ordered.mem_of_split {network : Store} {later earlier : List Nat} {id child : Nat}
    (ordered : Ordered network (later ++ id :: earlier)) (reads : Reads network id child) :
    child ∈ earlier := by
  induction later with
  | nil =>
      cases ordered with
      | cons _ _ below _ => exact below child reads
  | cons latest later induction =>
      cases ordered with
      | cons _ _ _ rest => exact induction rest

theorem Ordered.reaches_mem {network : Store} {nodes : List Nat}
    (ordered : Ordered network nodes) {id other : Nat} (member : id ∈ nodes)
    (reaches : Reaches network id other) : other ∈ nodes := by
  induction reaches with
  | refl => exact member
  | tail _ reads induction => exact ordered.reads_mem induction reads

theorem Ordered.below_mem {network : Store} {id : Nat} {rest : List Nat}
    (ordered : Ordered network (id :: rest)) {other : Nat}
    (below : Relation.TransGen (Reads network) id other) : other ∈ rest := by
  cases ordered with
  | cons _ _ first ordered =>
      obtain ⟨child, reads, reaches⟩ := Relation.TransGen.head'_iff.mp below
      exact ordered.reaches_mem (first child reads) reaches

theorem Ordered.not_onCycle {network : Store} {nodes : List Nat}
    (ordered : Ordered network nodes) {id : Nat} (member : id ∈ nodes) :
    ¬ OnCycle network id := by
  induction ordered with
  | nil => cases member
  | cons inside fresh below ordered induction =>
      rcases List.mem_cons.mp member with rfl | later
      · intro cycle
        exact fresh ((Ordered.cons inside fresh below ordered).below_mem cycle)
      · exact induction later

theorem Ordered.rec_below {network : Store} {nodes : List Nat}
    (ordered : Ordered network nodes) (law : Nat → Prop)
    (step : ∀ id, (∀ child, Reads network id child → law child) → law id) :
    ∀ id ∈ nodes, law id := by
  induction ordered with
  | nil =>
      intro id member
      cases member
  | cons _ _ below _ induction =>
      intro id member
      rcases List.mem_cons.mp member with rfl | later
      · exact step _ fun child reads => induction child (below child reads)
      · exact induction id later

end Network

namespace Listing

open Network

variable {Store : Type} [Network Store]

/-- The listed nodes are in order, and looking one up tells whether it is
listed. -/
structure Sound (network : Store) (listing : Listing) : Prop where
  ordered : Ordered network listing.latest
  done : ∀ id, listing.done.contains id = true ↔ id ∈ listing.latest

theorem sound_empty (network : Store) : Sound network empty :=
  { ordered := .nil, done := by simp [empty] }

theorem mem_done_insert (nodes : Std.TreeSet Nat) (id other : Nat) :
    (nodes.insert id).contains other = true ↔ other = id ∨ nodes.contains other = true := by
  rw [Std.TreeSet.contains_insert, Bool.or_eq_true, beq_iff_eq,
    Std.LawfulEqCmp.compare_eq_iff_eq, eq_comm]

/-- More nodes were listed, none of them on the path and each below one of
the starts, which are listed themselves. -/
structure Lists (network : Store) (path starts : List Nat) (listing next : Listing) :
    Prop where
  sound : Sound network next
  listed : ∀ start ∈ starts, start ∈ next.latest
  added : ∃ added, next.latest = added ++ listing.latest ∧
    ∀ id ∈ added, id ∉ path ∧ ReachedFrom network starts id

private theorem lists_nil {network : Store} {path : List Nat} {listing : Listing}
    (sound : Sound network listing) : Lists network path [] listing listing :=
  { sound := sound, listed := by simp, added := ⟨[], by simp⟩ }

theorem Lists.cons {network : Store} {path starts : List Nat} {start : Nat}
    {listing middle next : Listing} (first : Lists network path [start] listing middle)
    (rest : Lists network path starts middle next) :
    Lists network path (start :: starts) listing next := by
  obtain ⟨before, beforeEq, beforeBelow⟩ := first.added
  obtain ⟨after, afterEq, afterBelow⟩ := rest.added
  refine { sound := rest.sound, listed := ?_, added := ⟨after ++ before, ?_, ?_⟩ }
  · intro other member
    rcases List.mem_cons.mp member with rfl | later
    · rw [afterEq]
      exact List.mem_append_right _ (first.listed other List.mem_cons_self)
    · exact rest.listed other later
  · rw [afterEq, beforeEq, List.append_assoc]
  · intro id member
    rcases List.mem_append.mp member with late | early
    · obtain ⟨offPath, other, isStart, reaches⟩ := afterBelow id late
      exact ⟨offPath, other, List.mem_cons_of_mem _ isStart, reaches⟩
    · obtain ⟨offPath, other, isStart, reaches⟩ := beforeBelow id early
      rw [List.mem_singleton.mp isStart] at reaches
      exact ⟨offPath, start, List.mem_cons_self, reaches⟩

theorem foldlM_lists {network : Store} {depth : Nat} {path starts : List Nat}
    {listing next : Listing}
    (visited : ∀ start listing next, visit network depth path listing start = .ok next →
      Sound network listing → Lists network path [start] listing next)
    (done : starts.foldlM (visit network depth path) listing = .ok next)
    (sound : Sound network listing) : Lists network path starts listing next := by
  induction starts generalizing listing with
  | nil =>
      cases done
      exact lists_nil sound
  | cons start starts induction =>
      rw [List.foldlM_cons] at done
      obtain ⟨middle, first, rest⟩ := bind_eq_ok.mp done
      have here := visited start listing middle first sound
      exact here.cons (induction rest here.sound)

theorem visit_lists {network : Store} {depth : Nat} {path : List Nat} {start : Nat}
    {listing next : Listing} (done : visit network depth path listing start = .ok next)
    (sound : Sound network listing) : Lists network path [start] listing next := by
  induction depth generalizing path start listing next with
  | zero => cases done
  | succ depth induction =>
      rw [visit] at done
      split at done
      · cases done
      · rename_i inside
        split at done
        · rename_i listed
          cases done
          have member := (sound.done start).mp listed
          exact { sound := sound, listed := by simpa using member, added := ⟨[], by simp⟩ }
        · rename_i unlisted
          split at done
          · cases done
          · rename_i offPath
            dsimp only at done
            split at done
            · cases done
            · obtain ⟨middle, below, result⟩ := bind_eq_ok.mp done
              cases result
              have children := foldlM_lists
                (fun _ _ _ visited sound => induction visited sound) below sound
              obtain ⟨added, addedEq, addedBelow⟩ := children.added
              have fresh : start ∉ middle.latest := by
                rw [addedEq]
                intro member
                rcases List.mem_append.mp member with new | former
                · exact (addedBelow start new).1 List.mem_cons_self
                · exact unlisted ((sound.done start).mpr former)
              have reads : ∀ child, Reads network start child → child ∈ middle.latest :=
                fun child reads => children.listed child (List.mem_reverse.mpr reads)
              refine { sound := ⟨?_, ?_⟩, listed := ?_, added := ⟨start :: added, ?_, ?_⟩ }
              · exact .cons (Nat.lt_of_not_le inside) fresh reads children.sound.ordered
              · intro id
                rw [add, mem_done_insert, children.sound.done, List.mem_cons]
              · simp [add]
              · simp [add, addedEq]
              · intro id member
                rcases List.mem_cons.mp member with rfl | below
                · have notOnPath : id ∉ path := by simpa using offPath
                  exact ⟨notOnPath, id, List.mem_cons_self, .refl⟩
                · obtain ⟨notOnPath, child, isChild, reaches⟩ := addedBelow id below
                  exact ⟨fun onPath => notOnPath (List.mem_cons_of_mem _ onPath), start,
                    List.mem_cons_self, .head (List.mem_reverse.mp isChild) reaches⟩

theorem length_le_size_of_nodup {network : Store} {path : List Nat} (nodup : path.Nodup)
    (inside : ∀ id ∈ path, id < size network) : path.length ≤ size network := by
  have subset : path ⊆ List.range (size network) :=
    fun id member => List.mem_range.mpr (inside id member)
  have shorter := (nodup.subperm subset).length_le
  rwa [List.length_range] at shorter

/-- The outcome of visits over a closed table: either they succeed, or they
report a node that lies on a cycle below one of the starts. -/
def EndsWell (network : Store) (starts : List Nat) (outcome : Except Failure Listing) : Prop :=
  (∃ next, outcome = .ok next) ∨
    ∃ id, ReachedFrom network starts id ∧ OnCycle network id ∧
      outcome = .error (.fault (.cycle id))

theorem foldlM_endsWell {network : Store} {depth : Nat} {path starts : List Nat}
    {listing : Listing} (sound : Sound network listing)
    (visited : ∀ start ∈ starts, ∀ listing, Sound network listing →
      EndsWell network [start] (visit network depth path listing start)) :
    EndsWell network starts (starts.foldlM (visit network depth path) listing) := by
  induction starts generalizing listing with
  | nil => exact .inl ⟨listing, rfl⟩
  | cons start starts induction =>
      rw [List.foldlM_cons]
      rcases visited start List.mem_cons_self listing sound with
        ⟨middle, first⟩ | ⟨id, reached, cycle, failed⟩
      · have here := visit_lists first sound
        have rest := induction here.sound fun other member =>
          visited other (List.mem_cons_of_mem _ member)
        rw [first]
        rcases rest with ⟨next, done⟩ | ⟨id, ⟨other, member, reaches⟩, cycle, failed⟩
        · exact .inl ⟨next, done⟩
        · exact .inr ⟨id, ⟨other, List.mem_cons_of_mem _ member, reaches⟩, cycle, failed⟩
      · rw [failed]
        obtain ⟨other, member, reaches⟩ := reached
        rw [List.mem_singleton.mp member] at reaches
        exact .inr ⟨id, ⟨start, List.mem_cons_self, reaches⟩, cycle, rfl⟩

/-- The path leads down to the node to be visited, so it is no longer than
the table, and meeting a node of the path again closes a cycle. -/
theorem visit_endsWell {network : Store} (closed : Closed network) {depth : Nat}
    {path : List Nat} {start : Nat} {listing : Listing} (sound : Sound network listing)
    (inside : start < size network) (nodup : path.Nodup)
    (leads : ∀ id ∈ path, id < size network ∧ Relation.TransGen (Reads network) id start)
    (bound : depth + path.length = size network + 1) :
    EndsWell network [start] (visit network depth path listing start) := by
  induction depth generalizing path start listing with
  | zero =>
      have short := length_le_size_of_nodup nodup fun id member => (leads id member).1
      omega
  | succ depth induction =>
      rw [visit, if_neg (Nat.not_le_of_lt inside)]
      split
      · exact .inl ⟨listing, rfl⟩
      · split
        · rename_i onPath
          have cycle := (leads start (by simpa using onPath)).2
          exact .inr ⟨start, ⟨start, List.mem_cons_self, .refl⟩, cycle, rfl⟩
        · rename_i offPath
          have childrenInside : ¬ (children network start).any (size network ≤ ·) = true := by
            simp only [List.any_eq_true, decide_eq_true_eq, not_exists, not_and, Nat.not_le]
            exact fun child reads => closed start child reads
          dsimp only
          rw [if_neg childrenInside]
          have below : EndsWell network (children network start).reverse
              ((children network start).reverse.foldlM
                (visit network depth (start :: path)) listing) := by
            refine foldlM_endsWell sound fun child member listing sound => ?_
            have reads : Reads network start child := List.mem_reverse.mp member
            refine induction sound (closed start child reads)
              (List.nodup_cons.mpr ⟨by simpa using offPath, nodup⟩) ?_ ?_
            · intro id member
              rcases List.mem_cons.mp member with rfl | earlier
              · exact ⟨inside, .single reads⟩
              · exact ⟨(leads id earlier).1, (leads id earlier).2.tail reads⟩
            · rw [List.length_cons]
              omega
          rcases below with ⟨next, done⟩ | ⟨id, ⟨child, member, reaches⟩, cycle, failed⟩
          · rw [done]
            exact .inl ⟨next.add start, rfl⟩
          · rw [failed]
            exact .inr ⟨id, ⟨start, List.mem_cons_self,
              .head (List.mem_reverse.mp member) reaches⟩, cycle, rfl⟩

end Listing

open Network

variable {Store : Type} [Network Store] {network : Store} {roots order : List Nat}

/-- A successful sort lists the nodes below the roots and no others, each
once and after its fanins. -/
theorem ordered_of_topologicalSort (sorted : topologicalSort network roots = .ok order) :
    Ordered network order.reverse ∧ ∀ id, id ∈ order ↔ ReachedFrom network roots id := by
  obtain ⟨listing, done, result⟩ := bind_eq_ok.mp sorted
  cases result
  have lists := Listing.foldlM_lists
    (fun _ _ _ visited sound => Listing.visit_lists visited sound) done
    (Listing.sound_empty network)
  obtain ⟨added, addedEq, below⟩ := lists.added
  have all : listing.latest = added := by simpa [Listing.empty] using addedEq
  have ordered := lists.sound.ordered
  refine ⟨by rwa [List.reverse_reverse], fun id => ?_⟩
  rw [List.mem_reverse]
  constructor
  · intro member
    exact (below id (all ▸ member)).2
  · intro below
    obtain ⟨root, isRoot, reaches⟩ := below
    exact ordered.reaches_mem (lists.listed root isRoot) reaches

/-- Over a closed table, a sort succeeds or reports a cycle below the
roots. -/
theorem topologicalSort_ok_or_cycle (closed : Closed network)
    (inside : ∀ root ∈ roots, root < size network) :
    (∃ order, topologicalSort network roots = .ok order) ∨
      ∃ id, ReachedFrom network roots id ∧ OnCycle network id ∧
        topologicalSort network roots = .error (.fault (.cycle id)) := by
  have ends : Listing.EndsWell network roots
      (roots.foldlM (Listing.visit network (size network + 1) []) Listing.empty) :=
    Listing.foldlM_endsWell (Listing.sound_empty network) fun root member listing sound =>
      Listing.visit_endsWell closed sound (inside root member) List.nodup_nil
        (by simp) (by simp)
  rcases ends with ⟨listing, done⟩ | ⟨id, reached, cycle, failed⟩
  · exact .inl ⟨listing.latest.reverse, by rw [topologicalSort, done]; rfl⟩
  · exact .inr ⟨id, reached, cycle, by rw [topologicalSort, failed]; rfl⟩

end AndInverter
