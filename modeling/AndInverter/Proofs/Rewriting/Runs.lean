import AndInverter.Rewriting
import Mathlib.Logic.Relation

/-!
# Runs of the rewriting engine

What a successful run does to a view, step by step: proposals that replace
nothing, a rule that fires, and a refresh before the next pass.  The
statements say once what the loops can do; proofs about runs go by induction
on these relations.
-/

namespace AndInverter

def Record.change? : Record → Option Change
  | .change made => some made
  | _ => none

def changesOf (records : List Record) : List Change :=
  records.filterMap Record.change?

@[simp] private theorem changesOf_append (first second : List Record) :
    changesOf (first ++ second) = changesOf first ++ changesOf second :=
  List.filterMap_append

@[simp] private theorem changesOf_map_change (changes : List Change) :
    changesOf (changes.map .change) = changes := by
  simp [changesOf, List.filterMap_map, Function.comp_def, Record.change?]

namespace Rewriting

variable {Store : Type} [Network Store]

/-- A rule is tried on a node and replaces nothing; it may have built
something. -/
def Declines (view next : DepthView Store) : Prop :=
  ∃ rule node records,
    propose rule view node = .ok { replacement := none, view := next, records := records }

def Explores : DepthView Store → DepthView Store → Prop :=
  Relation.ReflTransGen Declines

/-- A rule replaces a node by what it has built. -/
def Fires (fuel : Nat) (rule : Rule) (view : DepthView Store) (changes : List Change)
    (next : DepthView Store) : Prop :=
  ∃ node proposal edge,
    propose rule view node = .ok proposal ∧ proposal.replacement = some edge ∧
      Network.substitute fuel proposal.view node edge = .ok (next, changes)

/-- The outcome of a search for a rewrite: none of the rules replaces a node,
or one of them does.  The changes are those that the search reports. -/
def Searched (fuel : Nat) (view : DepthView Store) (fired : Option Rule)
    (changes : List Change) (next : DepthView Store) : Prop :=
  (fired = none ∧ changes = [] ∧ Explores view next) ∨
    ∃ rule middle, fired = some rule ∧ Explores view middle ∧
      Fires fuel rule middle changes next

/-- Passes until none replaces anything or the limit is reached, with the
changes that they report. -/
inductive Repeats (fuel : Nat) : DepthView Store → List Change → DepthView Store → Prop
  | stop (view : DepthView Store) : Repeats fuel view [] view
  | last {view next : DepthView Store} (explores : Explores view next) :
      Repeats fuel view [] next
  | again {view middle replaced fresh next : DepthView Store} {rule : Rule}
      {changes later : List Change}
      (explores : Explores view middle) (fires : Fires fuel rule middle changes replaced)
      (refreshed : replaced.refresh = .ok fresh) (rest : Repeats fuel fresh later next) :
      Repeats fuel view (changes ++ later) next

/-- A proposal leaves the view as it is, or comes from the recipe of a rule
that has found its shape. -/
theorem propose_cases {rule : Rule} {view : DepthView Store} {node : Nat}
    {proposal : Proposal Store} (proposed : propose rule view node = .ok proposal) :
    (proposal.replacement = none ∧ proposal.view = view) ∨
      ∃ recipe edge, rule.examine view node = .found recipe ∧
        recipe.build view = .ok (edge, proposal.view) ∧
        ((edge.node = node ∧ proposal.replacement = none) ∨
          (edge.node ≠ node ∧ proposal.replacement = some edge)) := by
  unfold propose at proposed
  cases examined : rule.examine view node with
  | absent =>
      rw [examined] at proposed
      cases proposed
      exact .inl ⟨rfl, rfl⟩
  | blocked =>
      rw [examined] at proposed
      cases proposed
      exact .inl ⟨rfl, rfl⟩
  | found recipe =>
      rw [examined] at proposed
      obtain ⟨⟨edge, next⟩, built, outcome⟩ := bind_eq_ok.mp proposed
      by_cases same : edge.node = node
      · simp only [same, if_true, pure_eq_ok] at outcome
        cases outcome
        exact .inr ⟨recipe, edge, rfl, built, .inl ⟨same, rfl⟩⟩
      · simp only [same, if_false, pure_eq_ok] at outcome
        cases outcome
        exact .inr ⟨recipe, edge, rfl, built, .inr ⟨same, rfl⟩⟩

theorem changesOf_propose {rule : Rule} {view : DepthView Store} {node : Nat}
    {proposal : Proposal Store} (proposed : propose rule view node = .ok proposal) :
    changesOf proposal.records = [] := by
  unfold propose at proposed
  cases examined : rule.examine view node with
  | absent =>
      rw [examined] at proposed
      cases proposed
      rfl
  | blocked =>
      rw [examined] at proposed
      cases proposed
      rfl
  | found recipe =>
      rw [examined] at proposed
      obtain ⟨⟨edge, next⟩, built, outcome⟩ := bind_eq_ok.mp proposed
      by_cases same : edge.node = node
      · simp only [same, if_true, pure_eq_ok] at outcome
        cases outcome
        rfl
      · simp only [same, if_false, pure_eq_ok] at outcome
        cases outcome
        rfl

theorem network_assignLevel (view : DepthView Store) (left right gate : Edge) :
    (view.assignLevel left right gate).network = view.network := by
  unfold DepthView.assignLevel
  split <;> rfl

theorem network_of_createAnd {view next : DepthView Store} {left right edge : Edge}
    (created : view.createAnd left right = .ok (edge, next)) :
    Network.createAnd view.network left right = .ok (edge, next.network) := by
  unfold DepthView.createAnd at created
  obtain ⟨⟨gate, network⟩, built, result⟩ := bind_eq_ok.mp created
  cases result
  rw [built, network_assignLevel]

theorem build_and_eq_ok {left right : Recipe} {view next : DepthView Store} {edge : Edge} :
    (Recipe.and left right).build view = .ok (edge, next) ↔
      ∃ leftEdge middle rightEdge last, left.build view = .ok (leftEdge, middle) ∧
        right.build middle = .ok (rightEdge, last) ∧
        last.createAnd leftEdge rightEdge = .ok (edge, next) := by
  constructor
  · intro built
    obtain ⟨⟨leftEdge, middle⟩, builtLeft, rest⟩ := bind_eq_ok.mp built
    obtain ⟨⟨rightEdge, last⟩, builtRight, created⟩ := bind_eq_ok.mp rest
    exact ⟨leftEdge, middle, rightEdge, last, builtLeft, builtRight, created⟩
  · rintro ⟨leftEdge, middle, rightEdge, last, builtLeft, builtRight, created⟩
    exact bind_eq_ok.mpr
      ⟨(leftEdge, middle), builtLeft, bind_eq_ok.mpr ⟨(rightEdge, last), builtRight, created⟩⟩

theorem build_not_eq_ok {operand : Recipe} {view next : DepthView Store} {edge : Edge} :
    (Recipe.not operand).build view = .ok (edge, next) ↔
      ∃ inner, operand.build view = .ok (inner, next) ∧ edge = inner.not := by
  constructor
  · intro built
    obtain ⟨⟨inner, last⟩, builtOperand, result⟩ := bind_eq_ok.mp built
    cases result
    exact ⟨inner, builtOperand, rfl⟩
  · rintro ⟨inner, builtOperand, rfl⟩
    exact bind_eq_ok.mpr ⟨(inner, next), builtOperand, rfl⟩

theorem network_of_substitute {fuel node : Nat} {view next : DepthView Store} {edge : Edge}
    {changes : List Change}
    (substituted : Network.substitute fuel view node edge = .ok (next, changes)) :
    Network.substitute fuel view.network node edge = .ok (next.network, changes) := by
  obtain ⟨⟨network, made⟩, done, result⟩ := bind_eq_ok.mp substituted
  cases result
  exact done

theorem Searched.after {fuel : Nat} {view middle next : DepthView Store}
    {fired : Option Rule} {changes : List Change} (explores : Explores view middle)
    (searched : Searched fuel middle fired changes next) :
    Searched fuel view fired changes next := by
  rcases searched with ⟨quiet, unchanged, rest⟩ | ⟨rule, last, fired, rest, fires⟩
  · exact .inl ⟨quiet, unchanged, explores.trans rest⟩
  · exact .inr ⟨rule, last, fired, explores.trans rest, fires⟩

theorem tryRules_searched {fuel node : Nat} {rules : List Rule} {view : DepthView Store}
    {progress : Progress Store} (tried : tryRules fuel node view rules = .ok progress) :
    Searched fuel view progress.fired (changesOf progress.records) progress.view := by
  induction rules generalizing view progress with
  | nil =>
      cases tried
      exact .inl ⟨rfl, rfl, .refl⟩
  | cons rule rules induction =>
      rw [tryRules] at tried
      obtain ⟨proposal, proposed, outcome⟩ := bind_eq_ok.mp tried
      have unchanged := changesOf_propose proposed
      obtain ⟨replacement, built, records⟩ := proposal
      cases replacement with
      | some edge =>
          obtain ⟨⟨replaced, changes⟩, substituted, result⟩ := bind_eq_ok.mp outcome
          cases result
          rw [changesOf_append, unchanged, List.nil_append, changesOf_map_change]
          exact .inr ⟨rule, view, rfl, .refl, ⟨node, _, edge, proposed, rfl, substituted⟩⟩
      | none =>
          obtain ⟨later, triedLater, result⟩ := bind_eq_ok.mp outcome
          cases result
          rw [changesOf_append, unchanged, List.nil_append]
          have declines : Declines view built := ⟨rule, node, records, proposed⟩
          have rest := induction triedLater
          exact rest.after (.single declines)

theorem tryNodes_searched {fuel : Nat} {rules : List Rule} {nodes : List Nat}
    {view : DepthView Store} {progress : Progress Store}
    (tried : tryNodes fuel rules view nodes = .ok progress) :
    Searched fuel view progress.fired (changesOf progress.records) progress.view := by
  induction nodes generalizing view progress with
  | nil =>
      cases tried
      exact .inl ⟨rfl, rfl, .refl⟩
  | cons node nodes induction =>
      rw [tryNodes] at tried
      split at tried
      · exact induction tried
      · obtain ⟨⟨fired, built, records⟩, triedRules, outcome⟩ := bind_eq_ok.mp tried
        have here := tryRules_searched triedRules
        cases fired with
        | some rule =>
            cases outcome
            exact here
        | none =>
            obtain ⟨rest, triedRest, result⟩ := bind_eq_ok.mp outcome
            cases result
            rcases here with ⟨_, unchanged, explores⟩ | ⟨rule, middle, fired, _⟩
            · have later := induction triedRest
              rw [changesOf_append, unchanged, List.nil_append]
              exact later.after explores
            · cases fired

theorem passes_repeats {fuel rounds : Nat} {parameters : Parameters}
    {statistics : Statistics} {view : DepthView Store} {run : Run Store}
    (ended : passes fuel parameters rounds statistics view = .ok run) :
    Repeats fuel view (changesOf run.records) run.view := by
  induction rounds generalizing statistics view run with
  | zero => cases ended
  | succ rounds induction =>
      rw [passes] at ended
      split at ended
      · cases ended
        exact .stop view
      · obtain ⟨progress, passed, outcome⟩ := bind_eq_ok.mp ended
        rcases tryNodes_searched passed with ⟨quiet, unchanged, explores⟩ |
          ⟨rule, middle, fired, explores, fires⟩
        · simp only [quiet, pure_eq_ok] at outcome
          cases outcome
          rw [unchanged]
          exact .last explores
        · simp only [fired] at outcome
          obtain ⟨fresh, refreshed, continued⟩ := bind_eq_ok.mp outcome
          obtain ⟨later, endedLater, result⟩ := bind_eq_ok.mp continued
          cases result
          have rest := induction endedLater
          rw [changesOf_append]
          exact .again explores fires refreshed rest

theorem network_of_ofNetwork {network : Store} {view : DepthView Store}
    (seen : DepthView.ofNetwork network = .ok view) : view.network = network := by
  unfold DepthView.ofNetwork at seen
  split at seen
  · cases seen
  · split at seen
    · cases seen
    · cases seen
      rfl

theorem network_of_refresh {view fresh : DepthView Store}
    (refreshed : view.refresh = .ok fresh) : fresh.network = view.network :=
  network_of_ofNetwork refreshed

theorem optimize_repeats {fuel : Nat} {parameters : Parameters} {network : Store}
    {run : Run Store} (ended : optimize fuel parameters network = .ok run) :
    ∃ view, DepthView.ofNetwork network = .ok view ∧
      Repeats fuel view (changesOf run.records) run.view := by
  unfold optimize Rewriting.run at ended
  obtain ⟨first, seen, ran⟩ := bind_eq_ok.mp ended
  obtain ⟨view, refreshed, ranOn⟩ := bind_eq_ok.mp ran
  obtain ⟨last, repeated, result⟩ := bind_eq_ok.mp ranOn
  cases result
  have same := network_of_ofNetwork seen
  have repeats := passes_repeats repeated
  have unchanged : ∀ statistics, changesOf (last.records ++ [.finished statistics]) =
      changesOf last.records := by
    intro statistics
    rw [changesOf_append]
    exact List.append_nil _
  refine ⟨view, same ▸ refreshed, ?_⟩
  rw [unchanged]
  exact repeats

end Rewriting

end AndInverter
