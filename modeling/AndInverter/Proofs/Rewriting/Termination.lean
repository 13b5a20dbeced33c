import AndInverter.Aig.Integrity
import AndInverter.Proofs.Rewriting.Weights

/-!
# Rewriting ends

From a view that it reaches, a run gets to the next one if its substitution
settles.  So a run whose substitutions settle ends, unless there is no limit
to its rewrites.  There is one as long as the gainless rewrites are limited,
and only three-layer distributivity makes gainless rewrites.
-/

namespace AndInverter

namespace Rewriting

open DepthView Aig

variable {parameters : Parameters} {first view found fresh : DepthView Aig}
  {rewrites gainless : Nat} {rule : Rule} {substitution : Substitution}

/-! ### Passes -/

theorem pass_of_quiet (fuel : Nat)
    (quiet : search parameters view = .ok { view := view, rewrite := none }) :
    ∃ records, pass fuel parameters view =
      .ok { fired := none, view := view, records := records } := by
  apply outcome_eq_ok.mp
  rw [pass_eq_search, quiet]
  rfl

theorem pass_of_found {fuel : Nat} {next : Aig} {changes : List Change}
    (searched : search parameters view = .ok { view := found, rewrite := some (rule, substitution) })
    (substituted : found.network.substitute fuel substitution.old substitution.new =
      .ok (next, changes)) :
    ∃ records, pass fuel parameters view =
      .ok { fired := some rule, view := { found with network := next }, records := records } := by
  have replaced : Network.substitute fuel found substitution.old substitution.new =
      .ok ({ found with network := next }, changes) :=
    bind_eq_ok.mpr ⟨_, substituted, rfl⟩
  apply outcome_eq_ok.mp
  rw [pass_eq_search, searched]
  exact bind_eq_ok.mpr ⟨_, rfl, bind_eq_ok.mpr ⟨_, replaced, rfl⟩⟩

def Ends (parameters : Parameters) (rewrites : Nat) (view : DepthView Aig) : Prop :=
  ∃ bound, ∀ (fuel rounds : Nat) (statistics : Statistics), bound ≤ fuel → bound ≤ rounds →
    statistics.rewrites = rewrites →
      ∃ run, passes fuel parameters rounds statistics view = .ok run

theorem ends_of_reached (full : parameters.reached rewrites = true) :
    Ends parameters rewrites view := by
  refine ⟨1, ?_⟩
  rintro fuel rounds statistics _ enough rfl
  obtain ⟨rounds, rfl⟩ := Nat.exists_eq_succ_of_ne_zero (Nat.ne_zero_of_lt enough)
  rw [passes, if_pos full]
  exact ⟨_, rfl⟩

theorem ends_of_quiet
    (quiet : search parameters view = .ok { view := view, rewrite := none }) :
    Ends parameters rewrites view := by
  by_cases full : parameters.reached rewrites = true
  · exact ends_of_reached full
  · refine ⟨1, ?_⟩
    rintro fuel rounds statistics _ enough rfl
    obtain ⟨rounds, rfl⟩ := Nat.exists_eq_succ_of_ne_zero (Nat.ne_zero_of_lt enough)
    obtain ⟨records, passed⟩ := pass_of_quiet fuel quiet
    rw [passes, if_neg full, passed]
    exact ⟨_, rfl⟩

theorem ends_of_due (due : Due parameters rewrites view found substitution) {next : Aig}
    {changes : List Change} (drains : Drains found.network [substitution] next changes)
    (refreshed : DepthView.ofNetwork next = .ok fresh)
    (later : Ends parameters (rewrites + 1) fresh) : Ends parameters rewrites view := by
  obtain ⟨room, rule, searched⟩ := due
  obtain ⟨steps, drained⟩ := drains.exists_bound
  obtain ⟨bound, ended⟩ := later
  refine ⟨max steps bound + 1, ?_⟩
  rintro fuel rounds statistics enough allowed rfl
  obtain ⟨rounds, rfl⟩ := Nat.exists_eq_succ_of_ne_zero (Nat.ne_zero_of_lt allowed)
  obtain ⟨records, passed⟩ := pass_of_found searched (drained fuel (by omega))
  have counted : ({ statistics with passes := statistics.passes + 1 }.record rule).rewrites =
      statistics.rewrites + 1 := rewrites_record _ rule
  obtain ⟨run, ran⟩ := ended fuel rounds _ (by omega) (by omega) counted
  rw [passes, if_neg (Bool.not_eq_true _ ▸ room)]
  exact ⟨_, bind_eq_ok.mpr ⟨_, passed,
    bind_eq_ok.mpr ⟨fresh, refreshed, bind_eq_ok.mpr ⟨run, ran, rfl⟩⟩⟩⟩

/-- A run ends if its substitutions settle and there is a limit to its
rewrites. -/
theorem Advances.ends (start : Current first) (settling : Settling parameters first.network)
    {limit : Nat} (limited : ∀ {rewrites gainless view},
      Advances parameters first rewrites gainless view → rewrites ≤ limit)
    (advances : Advances parameters first rewrites gainless view) :
    Ends parameters rewrites view := by
  -- The induction is on how many rewrites are left.
  obtain ⟨left, room⟩ : ∃ left, limit < rewrites + left :=
    ⟨limit + 1, Nat.lt_of_lt_of_le (Nat.lt_succ_self limit) (Nat.le_add_left _ _)⟩
  induction left generalizing rewrites gainless view with
  | zero => exact absurd (limited advances) (Nat.not_le_of_lt room)
  | succ left induction =>
      by_cases full : parameters.reached rewrites = true
      · exact ends_of_reached full
      rw [Bool.not_eq_true] at full
      have current := advances.current start
      rcases search_of_current current parameters with
        quiet | ⟨rule, substitution, found, searched, finds⟩
      · exact ends_of_quiet quiet
      · have due : Due parameters rewrites view found substitution := ⟨full, rule, searched⟩
        obtain ⟨image, next, changes, fresh, drains, folding, refreshed, _⟩ :=
          finds.exists_folding current (settling.settles start advances due)
        obtain ⟨fuel, substituted⟩ := drains.exists_bound
        have further := advances.rewrite due (substituted fuel (Nat.le_refl fuel)) refreshed
        apply ends_of_due due drains refreshed
        apply induction further
        omega

/-! ### Gainless rewrites -/

theorem Finds.gains (current : Current view)
    (finds : Finds parameters view rule substitution found)
    (other : rule ≠ .threeLayerDistributivity) :
    found.level substitution.new.node < found.level substitution.old := by
  obtain ⟨recipe, examined, _, builds⟩ := finds.recipe
  obtain ⟨fanins, stored⟩ := isGate_iff.mp (finds.isGate current)
  rw [builds.grown.level _ (lt_size_of_gateFanins? stored)]
  apply Nat.lt_of_le_of_lt builds.height
  exact (Rule.suits_of_examine current.truthful current.bookkeeping.toReferences examined).gains other

theorem Advances.gainless_eq_zero (start : Current first)
    (disabled : parameters.threeLayerDistributivity = false)
    (advances : Advances parameters first rewrites gainless view) : gainless = 0 := by
  induction advances with
  | start => rfl
  | @rewrite _ _ _ view found _ substitution _ _ earlier due _ _ induction =>
      have current := earlier.current start
      obtain ⟨rule, finds⟩ := finds_of_due current due
      have enabled := (List.mem_filter.mp finds.enabled).2
      have other : rule ≠ .threeLayerDistributivity := by
        rintro rfl
        rw [Parameters.enables, disabled] at enabled
        cases enabled
      rw [induction, if_neg (Nat.not_le_of_lt (finds.gains current other))]

/-- A run goes on making gainless rewrites. -/
def Lingers (parameters : Parameters) (aig : Aig) : Prop :=
  ∃ first, DepthView.ofNetwork aig = .ok first ∧ ∀ bound, ∃ rewrites gainless view,
    bound < gainless ∧ Advances parameters first rewrites gainless view

/-! ### Runs -/

/-- A run ends if there is a limit to its gainless rewrites. -/
theorem Advances.ends_of_gainless_le (start : Current first)
    (settling : Settling parameters first.network) {bound : Nat}
    (bounded : ∀ {rewrites gainless view},
      Advances parameters first rewrites gainless view → gainless ≤ bound) :
    Ends parameters 0 first := by
  have limited : ∀ {rewrites gainless view}, Advances parameters first rewrites gainless view →
      rewrites ≤ weight first + bound * 5 ^ (first.depth + 1) := by
    intro rewrites gainless view advances
    calc rewrites ≤ rewrites + weight view := Nat.le_add_right _ _
      _ ≤ weight first + gainless * 5 ^ (first.depth + 1) := advances.rewrites_le start settling
      _ ≤ weight first + bound * 5 ^ (first.depth + 1) :=
        Nat.add_le_add_left (Nat.mul_le_mul_right _ (bounded advances)) _
  exact Advances.ends start settling limited .start

/-- A run on an acyclic network ends, unless it comes to a substitution that
does not settle or goes on making gainless rewrites, which takes three-layer
distributivity. -/
theorem optimize_ends {aig : Aig} (reachable : aig.Reachable) (acyclic : aig.Acyclic)
    (parameters : Parameters) :
    (∃ bound, ∀ fuel, bound ≤ fuel → ∃ run, optimize fuel parameters aig = .ok run) ∨
      (∃ store substitution, ComesTo parameters aig store substitution ∧
        ¬ store.Settles substitution) ∨
      parameters.threeLayerDistributivity = true ∧ Lingers parameters aig := by
  obtain ⟨first, seen⟩ := exists_ofNetwork reachable.bookkeeping.toReferences acyclic
  have start := current_of_ofNetwork reachable.bookkeeping reachable.ports seen
  obtain rfl := network_of_ofNetwork seen
  by_cases settling : Settling parameters first.network
  · by_cases limited : ∃ bound, ∀ {rewrites gainless view},
        Advances parameters first rewrites gainless view → gainless ≤ bound
    · left
      obtain ⟨limit, bounded⟩ := limited
      obtain ⟨bound, ended⟩ := Advances.ends_of_gainless_le start settling bounded
      refine ⟨bound, fun fuel enough => ?_⟩
      obtain ⟨run, ran⟩ := ended fuel fuel
        { depthBefore := first.depth, gatesBefore := gateCount first } enough enough rfl
      exact ⟨_, bind_eq_ok.mpr ⟨first, seen, bind_eq_ok.mpr ⟨first, seen,
        bind_eq_ok.mpr ⟨run, ran, rfl⟩⟩⟩⟩
    · right
      right
      push Not at limited
      constructor
      · by_contra disabled
        rw [Bool.not_eq_true] at disabled
        obtain ⟨rewrites, gainless, view, advances, positive⟩ := limited 0
        rw [advances.gainless_eq_zero start disabled] at positive
        exact Nat.lt_irrefl 0 positive
      · refine ⟨first, seen, fun bound => ?_⟩
        obtain ⟨rewrites, gainless, view, advances, more⟩ := limited bound
        exact ⟨rewrites, gainless, view, more, advances⟩
  · right
    left
    unfold Settling at settling
    push Not at settling
    exact settling

theorem Advances.eq_or_eq {last found' : DepthView Aig} {next : Aig} {fuel : Nat}
    {changes : List Change}
    (searched : search parameters first = .ok { view := found, rewrite := some (rule, substitution) })
    (substituted : found.network.substitute fuel substitution.old substitution.new =
      .ok (next, changes))
    (refreshed : DepthView.ofNetwork next = .ok last)
    (quiet : search parameters last = .ok { view := found', rewrite := none })
    (advances : Advances parameters first rewrites gainless view) :
    gainless = 0 ∧ view = first ∨ gainless ≤ 1 ∧ view = last := by
  induction advances with
  | start => exact .inl ⟨rfl, rfl⟩
  | rewrite _ due substituted' refreshed' induction =>
      obtain ⟨_, _, again⟩ := due
      rcases induction with ⟨rfl, rfl⟩ | ⟨_, rfl⟩
      · rw [searched] at again
        cases again
        obtain ⟨rfl, _⟩ := (substitute_drains substituted').unique (substitute_drains substituted)
        rw [refreshed] at refreshed'
        cases refreshed'
        right
        constructor
        · split <;> decide
        · rfl
      · rw [quiet] at again
        cases again

/-- A run on a chain of three gates ends behind its first rewrite. -/
theorem optimize_ends_chain : ∃ aig, Aig.Reachable aig ∧ aig.Acyclic ∧
    ∃ bound, ∀ fuel, bound ≤ fuel → ∃ run, optimize fuel {} aig = .ok run := by
  have checked : (do
      let ended ← Aig.empty.session [.addInput, .addInput, .addInput, .addInput,
        .createAnd (.plain 1) (.plain 2), .createAnd (.plain 5) (.plain 3),
        .createAnd (.plain 6) (.plain 4), .addOutput (Edge.plain 7).not]
      let first ← DepthView.ofNetwork ended.1
      let found ← search {} first
      let substitution : Substitution := { old := 7, new := .plain 9 }
      let replaced ← found.view.network.substitute 10 substitution.old substitution.new
      let last ← DepthView.ofNetwork replaced.1
      let rest ← search {} last
      return found.rewrite == some (Rule.associativity, substitution) &&
        found.view.network.settles 10 [] [substitution] && rest.rewrite == none) = .ok true := by
    decide +kernel
  obtain ⟨⟨aig, log⟩, ended, rest⟩ := bind_eq_ok.mp checked
  obtain ⟨first, seen, rest⟩ := bind_eq_ok.mp rest
  obtain ⟨⟨built, rewrite⟩, searched, rest⟩ := bind_eq_ok.mp rest
  obtain ⟨⟨next, changes⟩, substituted, rest⟩ := bind_eq_ok.mp rest
  obtain ⟨last, refreshed, rest⟩ := bind_eq_ok.mp rest
  obtain ⟨⟨view, rewrite'⟩, searched', results⟩ := bind_eq_ok.mp rest
  simp only [pure_eq_ok, Bool.and_eq_true, beq_iff_eq] at results
  obtain ⟨⟨rfl, settled⟩, rfl⟩ := results
  have reachable : aig.Reachable := evolves_of_session ended
  have acyclic := Network.acyclic_of_ofNetwork seen
  have short : ∀ {rewrites gainless view}, Advances {} first rewrites gainless view →
      gainless = 0 ∧ view = first ∨ gainless ≤ 1 ∧ view = last :=
    fun advances => advances.eq_or_eq searched substituted refreshed searched'
  refine ⟨aig, reachable, acyclic, ?_⟩
  rcases optimize_ends reachable acyclic {} with
    ends | ⟨store, substitution, comes, unsettled⟩ | ⟨_, first', seen', lingers⟩
  · exact ends
  · obtain ⟨first', rewrites, gainless, view, found', seen', advances, due, rfl⟩ := comes
    obtain ⟨_, _, again⟩ := due
    rw [seen] at seen'
    cases seen'
    rcases short advances with ⟨_, rfl⟩ | ⟨_, rfl⟩
    · rw [searched] at again
      cases again
      exact absurd ⟨10, settled⟩ unsettled
    · rw [searched'] at again
      cases again
  · rw [seen] at seen'
    cases seen'
    obtain ⟨_, gainless, _, many, advances⟩ := lingers 1
    rcases short advances with ⟨none, _⟩ | ⟨few, _⟩
    · rw [none] at many
      omega
    · omega

/-- A network in which the first rewrite closes a cycle. -/
def cycleByRewriteSession : List Operation :=
  [.addInput, .addInput, .addInput, .addInput,
    .createAnd (.plain 4) (Edge.plain 2).not, .createAnd (.plain 5) (.plain 1),
    .createAnd (.plain 6) (.plain 1), .createAnd (Edge.plain 3).not (.plain 6),
    .createAnd (Edge.plain 8).not (.plain 4), .createAnd (.plain 7) (.plain 9),
    .createAnd (.plain 6) (.plain 9), .createAnd (.plain 10) (.plain 8),
    .createAnd (Edge.plain 12).not (.plain 4), .createAnd (.plain 7) (.plain 13),
    .createAnd (.plain 6) (.plain 13), .createAnd (.plain 13) (Edge.plain 4).not,
    .createAnd (.plain 7) (.plain 4), .createAnd (Edge.plain 16).not (.plain 17),
    .addOutput (Edge.plain 7).not, .substitute 10 3 (.plain 7)]

/-- A run need not end: levels cannot be computed anew on a cycle. -/
theorem not_optimize_ends : ∃ aig, Aig.Reachable aig ∧ aig.Acyclic ∧
    aig.checkIntegrity = .ok () ∧ ∀ fuel run, optimize fuel {} aig ≠ .ok run := by
  have checked : (do
      let ended ← Aig.empty.session cycleByRewriteSession
      let _ ← ended.1.checkIntegrity
      let first ← DepthView.ofNetwork ended.1
      let found ← search {} first
      let substitution : Substitution := { old := 7, new := .plain 6 }
      let replaced ← found.view.network.substitute 40 substitution.old substitution.new
      return found.rewrite == some (Rule.associativity, substitution) &&
        !(DepthView.ofNetwork replaced.1).isOk) = .ok true := by
    decide +kernel
  obtain ⟨⟨aig, log⟩, ended, rest⟩ := bind_eq_ok.mp checked
  obtain ⟨_, sound, rest⟩ := bind_eq_ok.mp rest
  obtain ⟨first, seen, rest⟩ := bind_eq_ok.mp rest
  obtain ⟨⟨built, rewrite⟩, searched, rest⟩ := bind_eq_ok.mp rest
  obtain ⟨⟨next, changes⟩, substituted, results⟩ := bind_eq_ok.mp rest
  simp only [pure_eq_ok, Bool.and_eq_true, beq_iff_eq] at results
  obtain ⟨rfl, cyclic⟩ := results
  have reachable : aig.Reachable := evolves_of_session ended
  -- No view follows on the first one.
  have stuck : ∀ {rewrites gainless view}, Advances {} first rewrites gainless view →
      view = first := by
    intro rewrites gainless view advances
    induction advances with
    | start => rfl
    | rewrite _ due replaced refreshed induction =>
        obtain ⟨_, _, again⟩ := due
        rw [induction, searched] at again
        cases again
        obtain ⟨rfl, _⟩ := (substitute_drains replaced).unique (substitute_drains substituted)
        rw [refreshed] at cyclic
        cases cyclic
  refine ⟨aig, reachable, Network.acyclic_of_ofNetwork seen, sound, ?_⟩
  intro fuel run optimized
  obtain ⟨first', _, seen', _, advances, _, _, ends⟩ := optimize_advances reachable optimized
  rw [seen] at seen'
  cases seen'
  rw [stuck advances] at ends
  rcases ends with full | quiet
  · cases full
  · rw [searched] at quiet
    cases quiet

end Rewriting

end AndInverter
