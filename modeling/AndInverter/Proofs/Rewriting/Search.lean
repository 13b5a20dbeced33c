import AndInverter.Proofs.DepthView.Refreshing
import AndInverter.Proofs.Rewriting.Heights

/-!
# The search for a rewrite

A pass is a search for the first rewrite, and then the substitution that it
asks for.  Only the substitution depends on a number of steps, so the search
tells which substitutions a run comes to.  On a view that tells the truth the
search leaves nothing behind: it builds once, and what it has built is not the
node itself.
-/

namespace AndInverter

namespace Rewriting

section Search

variable {Store : Type}

/-- How a search ends: the view as it is then, and the rewrite to be made, if
there is one. -/
structure Found (Store : Type) where
  view : DepthView Store
  rewrite : Option (Rule × Substitution)

/-- What a pass makes of the view, its records apart. -/
def Progress.outcome (progress : Progress Store) : Option Rule × DepthView Store :=
  (progress.fired, progress.view)

theorem outcome_eq_ok {tried : Except Failure (Progress Store)} {fired : Option Rule}
    {view : DepthView Store} : Progress.outcome <$> tried = .ok (fired, view) ↔
      ∃ records, tried = .ok { fired := fired, view := view, records := records } := by
  constructor
  · intro outcome
    cases tried with
    | error failure => cases outcome
    | ok progress =>
        obtain ⟨fired, view, records⟩ := progress
        cases outcome
        exact ⟨records, rfl⟩
  · rintro ⟨records, rfl⟩
    rfl

private theorem outcome_eq_error {tried : Except Failure (Progress Store)} {failure : Failure} :
    Progress.outcome <$> tried = .error failure ↔ tried = .error failure := by
  constructor
  · intro outcome
    cases tried with
    | error other =>
        cases outcome
        rfl
    | ok progress => cases outcome
  · rintro rfl
    rfl

variable [Network Store]

def searchRules (node : Nat) (view : DepthView Store) :
    List Rule → Except Failure (Found Store)
  | [] => .ok { view := view, rewrite := none }
  | rule :: rules => do
    let proposal ← propose rule view node
    match proposal.replacement with
    | some edge =>
      return { view := proposal.view, rewrite := some (rule, { old := node, new := edge }) }
    | none => searchRules node proposal.view rules

def searchNodes (rules : List Rule) (view : DepthView Store) :
    List Nat → Except Failure (Found Store)
  | [] => .ok { view := view, rewrite := none }
  | node :: nodes =>
    if Network.isDead view node then
      searchNodes rules view nodes
    else do
      let found ← searchRules node view rules
      match found.rewrite with
      | some _ => return found
      | none => searchNodes rules found.view nodes

def search (parameters : Parameters) (view : DepthView Store) : Except Failure (Found Store) :=
  searchNodes parameters.rules view (Network.gates view)

def Found.make (fuel : Nat) (found : Found Store) :
    Except Failure (Option Rule × DepthView Store) :=
  match found.rewrite with
  | none => .ok (none, found.view)
  | some (rule, substitution) => do
    let (view, _) ← Network.substitute fuel found.view substitution.old substitution.new
    return (some rule, view)

theorem tryRules_eq_search (fuel node : Nat) (view : DepthView Store) (rules : List Rule) :
    Progress.outcome <$> tryRules fuel node view rules =
      searchRules node view rules >>= Found.make fuel := by
  induction rules generalizing view with
  | nil => rfl
  | cons rule rules induction =>
      rw [tryRules, searchRules]
      cases propose rule view node with
      | error failure => rfl
      | ok proposal =>
          obtain ⟨replacement, built, records⟩ := proposal
          cases replacement with
          | some edge =>
              show Progress.outcome <$> (Network.substitute fuel built node edge >>= _) =
                (Network.substitute fuel built node edge >>= _)
              cases Network.substitute fuel built node edge with
              | error failure => rfl
              | ok replaced => rfl
          | none =>
              have rest := induction built
              show Progress.outcome <$> (tryRules fuel node built rules >>= _) =
                searchRules node built rules >>= Found.make fuel
              rw [← rest]
              cases tryRules fuel node built rules with
              | error failure => rfl
              | ok progress => rfl

theorem Found.make_some {fuel : Nat} {view next : DepthView Store} {rule : Rule}
    {substitution : Substitution} {fired : Option Rule}
    (made : Found.make fuel { view := view, rewrite := some (rule, substitution) } =
      .ok (fired, next)) : fired = some rule ∧ ∃ changes,
        Network.substitute fuel view substitution.old substitution.new = .ok (next, changes) := by
  obtain ⟨⟨replaced, changes⟩, substituted, result⟩ := bind_eq_ok.mp made
  cases result
  exact ⟨rfl, changes, substituted⟩

theorem tryNodes_eq_search (fuel : Nat) (rules : List Rule) (view : DepthView Store)
    (nodes : List Nat) : Progress.outcome <$> tryNodes fuel rules view nodes =
      searchNodes rules view nodes >>= Found.make fuel := by
  induction nodes generalizing view with
  | nil => rfl
  | cons node nodes induction =>
      rw [tryNodes, searchNodes]
      split
      · exact induction view
      · have here := tryRules_eq_search fuel node view rules
        cases searched : searchRules node view rules with
        | error failure =>
            rw [searched] at here
            rw [outcome_eq_error.mp here]
            rfl
        | ok found =>
            obtain ⟨built, rewrite⟩ := found
            rw [searched] at here
            cases rewrite with
            | none =>
                obtain ⟨records, tried⟩ := outcome_eq_ok.mp here
                rw [tried]
                show Progress.outcome <$> (tryNodes fuel rules built nodes >>= _) =
                  searchNodes rules built nodes >>= Found.make fuel
                rw [← induction built]
                cases tryNodes fuel rules built nodes with
                | error failure => rfl
                | ok rest => rfl
            | some pair =>
                cases tried : tryRules fuel node view rules with
                | error failure =>
                    rw [tried] at here
                    exact here
                | ok progress =>
                    obtain ⟨fired, last, records⟩ := progress
                    rw [tried] at here
                    obtain ⟨rfl, _⟩ := Found.make_some here.symm
                    exact here

/-- A pass makes the rewrite that the search finds. -/
theorem pass_eq_search (fuel : Nat) (parameters : Parameters) (view : DepthView Store) :
    Progress.outcome <$> pass fuel parameters view =
      search parameters view >>= Found.make fuel :=
  tryNodes_eq_search fuel parameters.rules view _

end Search

/-! ### Searching a view that tells the truth -/

open DepthView Aig

/-- A view as it is at the start of a pass, of a store that operations have
left in order. -/
structure Current (view : DepthView Aig) : Prop where
  bookkeeping : view.network.Bookkeeping
  ports : view.network.Ports
  fresh : DepthView.ofNetwork view.network = .ok view

theorem Current.truthful {view : DepthView Aig} (current : Current view) : view.Truthful :=
  truthful_of_ofNetwork current.fresh

theorem Current.tracks {view : DepthView Aig} (current : Current view) : view.Tracks :=
  { bookkeeping := current.bookkeeping
    ports := current.ports
    levels := current.truthful.levels
    known := current.truthful.known }

theorem current_of_ofNetwork {aig : Aig} {view : DepthView Aig} (bookkeeping : aig.Bookkeeping)
    (ports : aig.Ports) (seen : DepthView.ofNetwork aig = .ok view) : Current view := by
  obtain rfl := network_of_ofNetwork seen
  exact { bookkeeping := bookkeeping, ports := ports, fresh := seen }

theorem exists_ofNetwork {aig : Aig} (references : aig.References) (acyclic : aig.Acyclic) :
    ∃ view, DepthView.ofNetwork aig = .ok view :=
  DepthView.exists_ofNetwork_of_bounded references.bounded acyclic

variable {view : DepthView Aig}

/-- What a rule builds for a node is not the node itself: if it is as high, it
would compute the complement. -/
theorem Current.replacement_ne (current : Current view) {rule : Rule} {node : Nat}
    {recipe : Recipe} {edge : Edge} {next : DepthView Aig}
    (found : rule.examine view node = .found recipe) (built : recipe.build view = .ok (edge, next))
    (builds : recipe.Builds view edge next) : edge.node ≠ node := by
  intro same
  have references := current.bookkeeping.toReferences
  have suits := Rule.suits_of_examine current.truthful references found
  have computes := Rule.computes_of_examine references found
  obtain ⟨fanins, stored⟩ := isGate_iff.mp computes.isGate
  have inside := lt_size_of_gateFanins? stored
  have level : next.level edge.node = view.level node := by rw [same, builds.grown.level node inside]
  have height := builds.height
  have equal : recipe.height view.level = view.level node := by
    apply Nat.le_antisymm suits.height
    rwa [level] at height
  have complemented : edge.complement = true := by
    rw [builds.polarity (level.trans equal.symm), suits.negated equal]
  obtain ⟨valuation, satisfies, _⟩ := exists_valuation references current.ports
    current.tracks.acyclic (fun _ => false)
  obtain ⟨extended, continues, value, _⟩ :=
    build_continues built current.bookkeeping current.ports computes.live satisfies
  rw [computes.value valuation satisfies, Edge.value, same, continues.agrees node inside,
    complemented, Bool.xor_true] at value
  exact Bool.not_ne_self _ value

/-- What a search comes to in the end: no rule finds anything, or the
replacement that the first one asks for was built. -/
structure Finds (parameters : Parameters) (view : DepthView Aig) (rule : Rule)
    (substitution : Substitution) (found : DepthView Aig) : Prop where
  enabled : rule ∈ parameters.rules
  different : substitution.new.node ≠ substitution.old
  recipe : ∃ recipe, rule.examine view substitution.old = .found recipe ∧
    recipe.build view = .ok (substitution.new, found) ∧
    recipe.Builds view substitution.new found

/-- No replacement that was built turned out to be the node itself. -/
def ReplacesOthers (records : List Record) : Prop :=
  ∀ rule node, Record.unchanged rule node ∉ records

theorem replacesOthers_append {first second : List Record} :
    ReplacesOthers (first ++ second) ↔ ReplacesOthers first ∧ ReplacesOthers second := by
  simp only [ReplacesOthers, List.mem_append, not_or]
  exact ⟨fun apart => ⟨fun rule node => (apart rule node).1, fun rule node => (apart rule node).2⟩,
    fun apart rule node => ⟨apart.1 rule node, apart.2 rule node⟩⟩

theorem replacesOthers_singleton {record : Record}
    (other : ∀ rule node, record ≠ .unchanged rule node) : ReplacesOthers [record] :=
  fun rule node member => other rule node (List.mem_singleton.mp member).symm

theorem replacesOthers_changes (changes : List Change) :
    ReplacesOthers (changes.map .change) := by
  intro rule node member
  obtain ⟨_, _, clash⟩ := List.mem_map.mp member
  cases clash

theorem propose_of_current (current : Current view) (rule : Rule) (node : Nat) :
    (∃ records, propose rule view node =
        .ok { replacement := none, view := view, records := records } ∧ ReplacesOthers records) ∨
      ∃ edge next records, propose rule view node =
          .ok { replacement := some edge, view := next, records := records } ∧
        ReplacesOthers records ∧
        edge.node ≠ node ∧ ∃ recipe, rule.examine view node = .found recipe ∧
          recipe.build view = .ok (edge, next) ∧ recipe.Builds view edge next := by
  unfold propose
  cases examined : rule.examine view node with
  | absent => exact .inl ⟨_, rfl, fun _ _ => List.not_mem_nil⟩
  | blocked => exact .inl ⟨_, rfl, replacesOthers_singleton nofun⟩
  | found recipe =>
      right
      have computes := Rule.computes_of_examine current.bookkeeping.toReferences examined
      obtain ⟨edge, next, built, builds⟩ := Recipe.build_builds current.tracks computes.live
      have different := current.replacement_ne examined built builds
      refine ⟨edge, next, [.replacing rule node (next.level node) edge], ?_,
        replacesOthers_singleton nofun, different, recipe, rfl, built, builds⟩
      show (recipe.build view >>= _) = _
      rw [built]
      show (if edge.node = node then _ else _) = _
      rw [if_neg different]
      rfl

theorem searchRules_of_current (current : Current view) {parameters : Parameters} (node : Nat)
    {rules : List Rule} (enabled : ∀ rule ∈ rules, rule ∈ parameters.rules) :
    searchRules node view rules = .ok { view := view, rewrite := none } ∨
      ∃ rule edge found, searchRules node view rules =
          .ok { view := found, rewrite := some (rule, { old := node, new := edge }) } ∧
        Finds parameters view rule { old := node, new := edge } found := by
  induction rules with
  | nil => exact .inl rfl
  | cons rule rules induction =>
      rw [searchRules]
      rcases propose_of_current current rule node with
        ⟨records, proposed, _⟩ | ⟨edge, next, records, proposed, _, different, recipe⟩
      · rw [proposed]
        exact induction fun other member => enabled other (List.mem_cons_of_mem _ member)
      · rw [proposed]
        exact .inr ⟨rule, edge, next, rfl, enabled rule List.mem_cons_self, different, recipe⟩

theorem searchNodes_of_current (current : Current view) (parameters : Parameters)
    (nodes : List Nat) :
    searchNodes parameters.rules view nodes = .ok { view := view, rewrite := none } ∨
      ∃ rule substitution found, searchNodes parameters.rules view nodes =
          .ok { view := found, rewrite := some (rule, substitution) } ∧
        Finds parameters view rule substitution found := by
  induction nodes with
  | nil => exact .inl rfl
  | cons node nodes induction =>
      rw [searchNodes]
      split
      · exact induction
      · rcases searchRules_of_current current node (fun _ member => member) with
          quiet | ⟨rule, edge, found, searched, finds⟩
        · rw [quiet]
          exact induction
        · rw [searched]
          exact .inr ⟨rule, _, found, rfl, finds⟩

/-- A search has a result.  If it finds no rewrite, it leaves the view as it
is. -/
theorem search_of_current (current : Current view) (parameters : Parameters) :
    search parameters view = .ok { view := view, rewrite := none } ∨
      ∃ rule substitution found, search parameters view =
          .ok { view := found, rewrite := some (rule, substitution) } ∧
        Finds parameters view rule substitution found :=
  searchNodes_of_current current parameters _

end Rewriting

end AndInverter
