import AndInverter.Proofs.Rewriting.Termination

/-!
# Fixpoints

On a view that tells the truth, rules that replace nothing leave nothing
behind, and what they build is never the node itself.  So a run that has room
for another rewrite when it ends has come to a fixpoint, where every later run
with these rules stays.
-/

namespace AndInverter

namespace Rewriting

open DepthView Aig

variable {parameters : Parameters} {view : DepthView Aig}

/-- Nothing is to be found. -/
def Quiet (parameters : Parameters) (view : DepthView Aig) : Prop :=
  search parameters view = .ok { view := view, rewrite := none }

/-! ### Passes that replace nothing -/

theorem tryRules_of_current (current : Current view) {fuel node : Nat} {rules : List Rule}
    {progress : Progress Aig} (tried : tryRules fuel node view rules = .ok progress) :
    ReplacesOthers progress.records ∧ (progress.fired = none → progress.view = view) := by
  induction rules generalizing progress with
  | nil =>
      cases tried
      exact ⟨fun _ _ => List.not_mem_nil, fun _ => rfl⟩
  | cons rule rules induction =>
      rw [tryRules] at tried
      obtain ⟨proposal, made, outcome⟩ := bind_eq_ok.mp tried
      rcases propose_of_current current rule node with
        ⟨records, proposed, others⟩ | ⟨edge, next, records, proposed, others, _⟩
      · rw [proposed] at made
        cases made
        obtain ⟨rest, triedRest, result⟩ := bind_eq_ok.mp outcome
        cases result
        obtain ⟨othersRest, same⟩ := induction triedRest
        exact ⟨replacesOthers_append.mpr ⟨others, othersRest⟩, same⟩
      · rw [proposed] at made
        cases made
        obtain ⟨⟨replaced, changes⟩, _, result⟩ := bind_eq_ok.mp outcome
        cases result
        exact ⟨replacesOthers_append.mpr ⟨others, replacesOthers_changes changes⟩,
          fun unfired => absurd unfired (Option.some_ne_none rule)⟩

theorem tryNodes_of_current (current : Current view) {fuel : Nat} {rules : List Rule}
    {nodes : List Nat} {progress : Progress Aig}
    (tried : tryNodes fuel rules view nodes = .ok progress) :
    ReplacesOthers progress.records ∧ (progress.fired = none → progress.view = view) := by
  induction nodes generalizing progress with
  | nil =>
      cases tried
      exact ⟨fun _ _ => List.not_mem_nil, fun _ => rfl⟩
  | cons node nodes induction =>
      rw [tryNodes] at tried
      split at tried
      · exact induction tried
      · obtain ⟨⟨fired, built, records⟩, triedHere, outcome⟩ := bind_eq_ok.mp tried
        obtain ⟨others, same⟩ := tryRules_of_current current triedHere
        cases fired with
        | some rule =>
            cases outcome
            exact ⟨others, fun unfired => absurd unfired (Option.some_ne_none rule)⟩
        | none =>
            obtain rfl : built = view := same rfl
            obtain ⟨rest, triedRest, result⟩ := bind_eq_ok.mp outcome
            cases result
            obtain ⟨othersRest, sameRest⟩ := induction triedRest
            exact ⟨replacesOthers_append.mpr ⟨others, othersRest⟩, sameRest⟩

/-- A pass that replaces nothing leaves the view as it is. -/
theorem pass_of_current (current : Current view) {fuel : Nat} {progress : Progress Aig}
    (passed : pass fuel parameters view = .ok progress) :
    ReplacesOthers progress.records ∧ (progress.fired = none → progress.view = view) :=
  tryNodes_of_current current passed

/-! ### Runs -/

theorem passes_replacesOthers (current : Current view) {fuel rounds : Nat}
    {statistics : Statistics} {run : Run Aig}
    (ended : passes fuel parameters rounds statistics view = .ok run) :
    ReplacesOthers run.records := by
  induction rounds generalizing statistics view run with
  | zero => cases ended
  | succ rounds induction =>
      cases passesFrom current ended with
      | full _ ends =>
          cases ends
          exact replacesOthers_singleton nofun
      | quiet _ _ passed ends =>
          cases ends
          exact (pass_of_current current passed).1
      | rewrites _ _ finds passed substituted refreshed continued ends =>
          cases ends
          have others := (pass_of_current current passed).1
          have later := induction (finds.current_next substituted refreshed) continued
          exact replacesOthers_append.mpr ⟨others, later⟩

theorem optimize_replacesOthers {fuel : Nat} {aig : Aig} {run : Run Aig}
    (reachable : aig.Reachable) (optimized : optimize fuel parameters aig = .ok run) :
    ReplacesOthers run.records := by
  obtain ⟨first, last, seen, ended, _, _, rfl⟩ := optimize_passes optimized
  have start := current_of_ofNetwork reachable.bookkeeping reachable.ports seen
  exact replacesOthers_append.mpr
    ⟨passes_replacesOthers start ended, replacesOthers_singleton nofun⟩

/-- A run from a view where nothing is to be found ends at once, whatever its
limit is. -/
theorem optimize_of_quiet (current : Current view) (quiet : Quiet parameters view) {fuel : Nat}
    (positive : 0 < fuel) (limit : Option Nat) :
    ∃ run, optimize fuel { parameters with maxRewrites := limit } view.network = .ok run ∧
      run.statistics.rewrites = 0 ∧ run.statistics.depthBefore = view.depth ∧
      run.view = view := by
  obtain ⟨rounds, rfl⟩ := Nat.exists_eq_succ_of_ne_zero (Nat.ne_zero_of_lt positive)
  have ended : ∃ last, passes (rounds + 1) { parameters with maxRewrites := limit } (rounds + 1)
        { depthBefore := view.depth, gatesBefore := gateCount view } view = .ok last ∧
      last.statistics.rewrites = 0 ∧ last.statistics.depthBefore = view.depth ∧
      last.view = view := by
    rw [passes]
    split
    · exact ⟨_, rfl, rfl, rfl, rfl⟩
    · have quietToo : Quiet { parameters with maxRewrites := limit } view := quiet
      obtain ⟨records, passed⟩ := pass_of_quiet (rounds + 1) quietToo
      rw [passed]
      exact ⟨_, rfl, rfl, rfl, rfl⟩
  obtain ⟨last, ended, none, depth, same⟩ := ended
  have seen := current.fresh
  exact ⟨_, bind_eq_ok.mpr ⟨view, seen, bind_eq_ok.mpr ⟨view, seen,
    bind_eq_ok.mpr ⟨last, ended, rfl⟩⟩⟩, none, depth, same⟩

/-- A pass in which no rule fires leaves the store and the view of it as they
are, and no rule ever builds the node that it is to replace.  Behind a run
that had room for another rewrite when it ended, every run with the same rules
returns at once, without a rewrite. -/
theorem optimize_idempotent {aig : Aig} (reachable : aig.Reachable) (parameters : Parameters) :
    (∀ fuel view progress, DepthView.ofNetwork aig = .ok view →
        pass fuel parameters view = .ok progress →
        ReplacesOthers progress.records ∧ (progress.fired = none → progress.view = view)) ∧
      ∀ fuel run, optimize fuel parameters aig = .ok run →
        ReplacesOthers run.records ∧
        (parameters.reached run.statistics.rewrites = false →
          ∀ (fuel' : Nat) (limit : Option Nat), 0 < fuel' → ∃ again,
            optimize fuel' { parameters with maxRewrites := limit } run.view.network = .ok again ∧
            again.statistics.rewrites = 0 ∧
            again.statistics.depthBefore = run.statistics.depthAfter ∧
            again.view = run.view) := by
  constructor
  · intro fuel view progress seen passed
    have current := current_of_ofNetwork reachable.bookkeeping reachable.ports seen
    exact pass_of_current current passed
  · intro fuel run optimized
    refine ⟨optimize_replacesOthers reachable optimized, ?_⟩
    intro room fuel' limit positive
    obtain ⟨first, _, _, start, advances, _, depth, stopped⟩ :=
      optimize_advances reachable optimized
    have quiet := stopped.resolve_left (Bool.not_eq_true _ ▸ room)
    obtain ⟨again, ran, none, before, same⟩ :=
      optimize_of_quiet (advances.current start) quiet positive limit
    exact ⟨again, ran, none, before.trans depth.symm, same⟩

/-- Two products share a critical signal, below a chain of two gates. -/
def productsSession : List Operation :=
  [.addInput, .addInput, .addInput, .addInput, .addInput, .addInput,
    .createAnd (.plain 1) (.plain 2), .createAnd (.plain 7) (.plain 3),
    .createAnd (.plain 7) (.plain 4), .createAnd (Edge.plain 8).not (Edge.plain 9).not,
    .createAnd (.plain 10) (.plain 5), .createAnd (.plain 11) (.plain 6),
    .addOutput (.plain 12)]

/-- Distributivity and then associativity fire, and a second run does nothing
more. -/
theorem optimize_idempotent_products : ∃ aig run again, Aig.Reachable aig ∧
    optimize 20 {} aig = .ok run ∧ run.statistics.distributivity = 1 ∧
      run.statistics.associativity = 1 ∧ run.statistics.depthBefore = 5 ∧
      run.statistics.depthAfter = 3 ∧ ReplacesOthers run.records ∧
      optimize 1 { maxRewrites := some 7 } run.view.network = .ok again ∧
      again.statistics.rewrites = 0 ∧ again.statistics.depthBefore = 3 ∧
      again.view = run.view := by
  have checked : (do
      let ended ← Aig.empty.session productsSession
      let run ← optimize 20 {} ended.1
      return run.statistics.distributivity == 1 && run.statistics.associativity == 1 &&
        run.statistics.depthBefore == 5 && run.statistics.depthAfter == 3) = .ok true := by
    decide +kernel
  obtain ⟨⟨aig, log⟩, ended, rest⟩ := bind_eq_ok.mp checked
  obtain ⟨run, optimized, results⟩ := bind_eq_ok.mp rest
  simp only [pure_eq_ok, Bool.and_eq_true, beq_iff_eq] at results
  obtain ⟨⟨⟨distributed, regrouped⟩, before⟩, after⟩ := results
  have reachable : aig.Reachable := evolves_of_session ended
  obtain ⟨others, fixed⟩ := (optimize_idempotent reachable {}).2 20 run optimized
  obtain ⟨again, ran, none, depth, same⟩ := fixed rfl 1 (some 7) Nat.zero_lt_one
  exact ⟨aig, run, again, reachable, optimized, distributed, regrouped, before, after, others,
    ran, none, depth.trans after, same⟩

end Rewriting

end AndInverter
