import AndInverter.Proofs.Rewriting.Fixpoints

/-!
# Limits

A limit on the number of rewrites truncates a run and does nothing else.  The
rewrites that a run makes form a chain in which each is determined by the view
before it.  A limit says where the chain ends, so two runs in a row make the
chain of one run with both limits.
-/

namespace AndInverter

def Statistics.count (statistics : Statistics) : Rule → Nat
  | .associativity => statistics.associativity
  | .distributivity => statistics.distributivity
  | .threeLayerDistributivity => statistics.threeLayerDistributivity

theorem Statistics.count_record (statistics : Statistics) (rule other : Rule) :
    (statistics.record rule).count other =
      statistics.count other + if rule = other then 1 else 0 := by
  cases rule <;> cases other <;> rfl

namespace Rewriting

open DepthView Aig

/-- The limit of two runs in a row.  There is none if one of them has none. -/
def jointLimit : Option Nat → Option Nat → Option Nat
  | some first, some second => some (first + second)
  | _, _ => none

variable {parameters : Parameters} {view last found fresh : DepthView Aig} {fired : List Rule}
  {limit : Option Nat}

/-! ### Chains of rewrites -/

/-- The rewrites that a run makes in a row, whatever its limit is: the view
before them, the rules that fire, and the view behind them. -/
inductive Chain (parameters : Parameters) : DepthView Aig → List Rule → DepthView Aig → Prop
  | nil (view : DepthView Aig) : Chain parameters view [] view
  | cons {view found fresh last : DepthView Aig} {rule : Rule} {substitution : Substitution}
      {fuel : Nat} {next : Aig} {changes : List Change} {fired : List Rule}
      (searched : search parameters view =
        .ok { view := found, rewrite := some (rule, substitution) })
      (substituted : found.network.substitute fuel substitution.old substitution.new =
        .ok (next, changes))
      (refreshed : DepthView.ofNetwork next = .ok fresh)
      (rest : Chain parameters fresh fired last) :
      Chain parameters view (rule :: fired) last

theorem Chain.current (chain : Chain parameters view fired last) (current : Current view) :
    Current last := by
  induction chain with
  | nil view => exact current
  | cons searched substituted refreshed _ induction =>
      rcases search_of_current current parameters with quiet | ⟨_, _, _, searched', finds⟩
      · rw [searched] at quiet
        cases quiet
      · rw [searched] at searched'
        cases searched'
        exact induction (finds.current_next substituted refreshed)

theorem Chain.append {middle : DepthView Aig} {more : List Rule}
    (earlier : Chain parameters view fired middle) (later : Chain parameters middle more last) :
    Chain parameters view (fired ++ more) last := by
  induction earlier with
  | nil view => exact later
  | cons searched substituted refreshed _ induction =>
      exact .cons searched substituted refreshed (induction later)

theorem Chain.of_quiet (quiet : Quiet parameters view) (chain : Chain parameters view fired last) :
    fired = [] ∧ last = view := by
  cases chain with
  | nil => exact ⟨rfl, rfl⟩
  | cons searched _ _ _ =>
      rw [quiet] at searched
      cases searched

/-- Each rewrite is determined by the view before it, so of two chains one
begins with the other. -/
theorem Chain.comparable {other : DepthView Aig} {more : List Rule}
    (left : Chain parameters view fired last) (right : Chain parameters view more other) :
    (∃ rest, more = fired ++ rest ∧ Chain parameters last rest other) ∨
      ∃ rest, fired = more ++ rest ∧ Chain parameters other rest last := by
  induction left generalizing more with
  | nil view => exact .inl ⟨more, rfl, right⟩
  | @cons view found fresh last rule substitution fuel next changes fired searched substituted
      refreshed rest induction =>
      cases right with
      | nil => exact .inr ⟨rule :: fired, rfl, .cons searched substituted refreshed rest⟩
      | cons searched' substituted' refreshed' rest' =>
          rw [searched] at searched'
          cases searched'
          obtain ⟨rfl, _⟩ :=
            (substitute_drains substituted).unique (substitute_drains substituted')
          rw [refreshed] at refreshed'
          cases refreshed'
          rcases induction rest' with ⟨more, rfl, further⟩ | ⟨more, rfl, further⟩
          · exact .inl ⟨more, rfl, further⟩
          · exact .inr ⟨more, rfl, further⟩

/-! ### Chains as long as a limit lets them be -/

/-- The chain that a run with the given limit makes. -/
structure Completes (parameters : Parameters) (limit : Option Nat) (view : DepthView Aig)
    (fired : List Rule) (last : DepthView Aig) : Prop where
  chain : Chain parameters view fired last
  within : ∀ bound, limit = some bound → fired.length ≤ bound
  ended : limit = some fired.length ∨ Quiet parameters last

theorem Completes.eq_of_prefix {other : DepthView Aig} {rest : List Rule}
    (completes : Completes parameters limit view fired last)
    (longer : Completes parameters limit view (fired ++ rest) other)
    (further : Chain parameters last rest other) : rest = [] ∧ other = last := by
  rcases completes.ended with full | quiet
  · have length := longer.within _ full
    rw [List.length_append] at length
    have none : rest = [] := List.eq_nil_of_length_eq_zero (by omega)
    subst none
    cases further
    exact ⟨rfl, rfl⟩
  · exact further.of_quiet quiet

theorem Completes.unique {other : DepthView Aig} {more : List Rule}
    (left : Completes parameters limit view fired last)
    (right : Completes parameters limit view more other) : fired = more ∧ last = other := by
  rcases left.chain.comparable right.chain with ⟨rest, rfl, further⟩ | ⟨rest, rfl, further⟩
  · obtain ⟨rfl, rfl⟩ := left.eq_of_prefix right further
    exact ⟨(List.append_nil _).symm, rfl⟩
  · obtain ⟨rfl, rfl⟩ := right.eq_of_prefix left further
    exact ⟨List.append_nil _, rfl⟩

theorem Completes.append {middle : DepthView Aig} {more : List Rule} {limit' : Option Nat}
    (earlier : Completes parameters limit view fired middle)
    (later : Completes parameters limit' middle more last) :
    Completes parameters (jointLimit limit limit') view (fired ++ more) last := by
  refine { chain := earlier.chain.append later.chain, within := ?_, ended := ?_ }
  · intro bound joint
    unfold jointLimit at joint
    split at joint
    · rename_i first second
      cases joint
      rw [List.length_append]
      exact Nat.add_le_add (earlier.within first rfl) (later.within second rfl)
    · cases joint
  · rcases later.ended with full | quiet
    · rcases earlier.ended with fullEarlier | quietEarlier
      · left
        rw [full, fullEarlier, List.length_append]
        rfl
      · obtain ⟨rfl, rfl⟩ := later.chain.of_quiet quietEarlier
        exact .inr quietEarlier
    · exact .inr quiet

/-! ### Runs -/

private theorem reached_iff {rewrites : Nat} : parameters.reached rewrites = true ↔
    ∃ bound, parameters.maxRewrites = some bound ∧ bound ≤ rewrites := by
  simp [Parameters.reached, Option.any_eq_true]

theorem passes_chain {fuel rounds : Nat} {statistics : Statistics} {run : Run Aig}
    (current : Current view)
    (room : ∀ bound, limit = some bound → statistics.rewrites ≤ bound)
    (ended : passes fuel { parameters with maxRewrites := limit } rounds statistics view =
      .ok run) :
    ∃ fired, Chain parameters view fired run.view ∧
      (∀ rule, run.statistics.count rule = statistics.count rule + fired.count rule) ∧
      run.statistics.rewrites = statistics.rewrites + fired.length ∧
      (∀ bound, limit = some bound → run.statistics.rewrites ≤ bound) ∧
      (limit = some run.statistics.rewrites ∨ Quiet parameters run.view) := by
  induction rounds generalizing statistics view run with
  | zero => cases ended
  | succ rounds induction =>
      cases passesFrom current ended with
      | full reached ends =>
          cases ends
          obtain ⟨bound, limited, below⟩ := reached_iff.mp reached
          have exact : bound = statistics.rewrites := Nat.le_antisymm below (room bound limited)
          exact ⟨[], .nil view, fun _ => rfl, rfl, room, .inl (exact ▸ limited)⟩
      | quiet _ searched _ ends =>
          cases ends
          exact ⟨[], .nil view, fun rule => by cases rule <;> rfl, rfl, room, .inr searched⟩
      | @rewrites rule _ _ _ _ _ _ _ _ left searched finds _ substituted refreshed continued ends =>
          cases ends
          have counted : ({ statistics with passes := statistics.passes + 1 }.record rule).rewrites =
              statistics.rewrites + 1 := rewrites_record _ rule
          have roomLater : ∀ bound, limit = some bound →
              ({ statistics with passes := statistics.passes + 1 }.record rule).rewrites ≤ bound := by
            intro bound limited
            rw [counted]
            refine Nat.lt_of_not_le fun full => ?_
            rw [reached_iff.mpr ⟨bound, limited, full⟩] at left
            cases left
          obtain ⟨fired, chain, counts, total, within, stopped⟩ :=
            induction (finds.current_next substituted refreshed) roomLater continued
          refine ⟨rule :: fired, .cons searched substituted refreshed chain, ?_, ?_, within, stopped⟩
          · intro other
            rw [counts other, Statistics.count_record, List.count_cons]
            cases rule <;> cases other <;> simp [Statistics.count] <;> omega
          · rw [total, counted, List.length_cons]
            omega

/-- A run makes a complete chain of rewrites and counts them. -/
theorem optimize_completes {fuel : Nat} {run : Run Aig} (current : Current view)
    (optimized : optimize fuel { parameters with maxRewrites := limit } view.network = .ok run) :
    ∃ fired, Completes parameters limit view fired run.view ∧
      (∀ rule, run.statistics.count rule = fired.count rule) ∧
      run.statistics.rewrites = fired.length := by
  obtain ⟨first, last, seen, ended, _, rfl, rfl⟩ := optimize_passes optimized
  rw [current.fresh] at seen
  cases seen
  obtain ⟨fired, chain, counts, total, within, stopped⟩ :=
    passes_chain current (fun _ _ => Nat.zero_le _) ended
  have length : last.statistics.rewrites = fired.length := total.trans (Nat.zero_add _)
  rw [length] at within stopped
  refine ⟨fired, { chain := chain, within := within, ended := stopped }, ?_, length⟩
  intro rule
  have counted := counts rule
  cases rule <;> exact counted.trans (Nat.zero_add _)

theorem Chain.ends {done : Nat} (chain : Chain parameters view fired last)
    (within : ∀ bound, limit = some bound → done + fired.length ≤ bound)
    (stopped : limit = some (done + fired.length) ∨ Quiet parameters last) :
    Ends { parameters with maxRewrites := limit } done view := by
  induction chain generalizing done with
  | nil view =>
      rcases stopped with full | quiet
      · exact ends_of_reached (reached_iff.mpr ⟨done, full, Nat.le_refl _⟩)
      · exact ends_of_quiet quiet
  | @cons view found fresh last rule substitution fuel next changes fired searched substituted
      refreshed rest induction =>
      rw [List.length_cons] at within stopped
      have shifted : done + (fired.length + 1) = done + 1 + fired.length := by omega
      rw [shifted] at within stopped
      have room : Parameters.reached { parameters with maxRewrites := limit } done = false := by
        rw [← Bool.not_eq_true, reached_iff]
        rintro ⟨bound, limited, full⟩
        have longer := within bound limited
        omega
      exact ends_of_due ⟨room, rule, searched⟩ (substitute_drains substituted) refreshed
        (induction within stopped)

theorem Completes.exists_bound (completes : Completes parameters limit view fired last)
    (current : Current view) : ∃ bound, ∀ fuel, bound ≤ fuel → ∃ run,
      optimize fuel { parameters with maxRewrites := limit } view.network = .ok run := by
  have within : ∀ bound, limit = some bound → 0 + fired.length ≤ bound := by
    simpa using completes.within
  have stopped : limit = some (0 + fired.length) ∨ Quiet parameters last := by
    simpa using completes.ended
  obtain ⟨bound, ended⟩ := completes.chain.ends within stopped
  refine ⟨bound, fun fuel enough => ?_⟩
  obtain ⟨run, ran⟩ := ended fuel fuel
    { depthBefore := view.depth, gatesBefore := gateCount view } enough enough rfl
  exact ⟨_, bind_eq_ok.mpr ⟨view, current.fresh, bind_eq_ok.mpr ⟨view, current.fresh,
    bind_eq_ok.mpr ⟨run, ran, rfl⟩⟩⟩⟩

/-- No run makes more rewrites than it may.  If a run returns and another one
with the same rules goes on from the store that it leaves, then one run with
both limits together returns too, given steps enough, and ends with the very
view of the same store; each rule fires as often as in the two runs. -/
theorem optimize_truncated {aig : Aig} (reachable : aig.Reachable) (parameters : Parameters) :
    (∀ fuel limit run, optimize fuel { parameters with maxRewrites := limit } aig = .ok run →
        ∀ bound, limit = some bound → run.statistics.rewrites ≤ bound) ∧
      ∀ fuel fuel' limit limit' first second,
        optimize fuel { parameters with maxRewrites := limit } aig = .ok first →
        optimize fuel' { parameters with maxRewrites := limit' } first.view.network =
          .ok second →
        (∃ bound, ∀ fuel, bound ≤ fuel → ∃ whole, optimize fuel
            { parameters with maxRewrites := jointLimit limit limit' } aig = .ok whole) ∧
          ∀ fuel whole, optimize fuel
              { parameters with maxRewrites := jointLimit limit limit' } aig = .ok whole →
            whole.view = second.view ∧ ∀ rule, whole.statistics.count rule =
              first.statistics.count rule + second.statistics.count rule := by
  have viewed : ∀ {fuel limit run},
      optimize fuel { parameters with maxRewrites := limit } aig = .ok run →
        ∃ view, Current view ∧ view.network = aig := by
    intro fuel limit run optimized
    obtain ⟨view, _, seen, _⟩ := optimize_passes optimized
    exact ⟨view, current_of_ofNetwork reachable.bookkeeping reachable.ports seen,
      network_of_ofNetwork seen⟩
  constructor
  · intro fuel limit run optimized bound limited
    obtain ⟨view, current, rfl⟩ := viewed optimized
    obtain ⟨fired, completes, _, total⟩ := optimize_completes current optimized
    exact total ▸ completes.within bound limited
  · intro fuel fuel' limit limit' first second early late
    obtain ⟨view, current, rfl⟩ := viewed early
    obtain ⟨fired, completes, counts, _⟩ := optimize_completes current early
    obtain ⟨more, completesLater, countsLater, _⟩ :=
      optimize_completes (completes.chain.current current) late
    have joined := completes.append completesLater
    refine ⟨joined.exists_bound current, ?_⟩
    intro fuel whole optimized
    obtain ⟨all, completesWhole, countsWhole, _⟩ := optimize_completes current optimized
    obtain ⟨rfl, same⟩ := completesWhole.unique joined
    refine ⟨same, fun rule => ?_⟩
    rw [countsWhole, counts, countsLater, List.count_append]

/-- Distributivity fires in a run with room for one rewrite, associativity in
the next run, and both in one run. -/
theorem optimize_truncated_products : ∃ aig first second whole, Aig.Reachable aig ∧
    optimize 20 { maxRewrites := some 1 } aig = .ok first ∧
      optimize 20 { maxRewrites := some 5 } first.view.network = .ok second ∧
      optimize 20 { maxRewrites := some 6 } aig = .ok whole ∧
      first.statistics.distributivity = 1 ∧ second.statistics.associativity = 1 ∧
      first.statistics.rewrites ≤ 1 ∧ whole.view = second.view ∧
      ∀ rule, whole.statistics.count rule =
        first.statistics.count rule + second.statistics.count rule := by
  have checked : (do
      let ended ← Aig.empty.session productsSession
      let first ← optimize 20 { maxRewrites := some 1 } ended.1
      let second ← optimize 20 { maxRewrites := some 5 } first.view.network
      let whole ← optimize 20 { maxRewrites := some 6 } ended.1
      return first.statistics.distributivity == 1 && second.statistics.associativity == 1 &&
        whole.statistics.rewrites == 2) = .ok true := by
    decide +kernel
  obtain ⟨⟨aig, log⟩, ended, rest⟩ := bind_eq_ok.mp checked
  obtain ⟨first, early, rest⟩ := bind_eq_ok.mp rest
  obtain ⟨second, late, rest⟩ := bind_eq_ok.mp rest
  obtain ⟨whole, optimized, results⟩ := bind_eq_ok.mp rest
  simp only [pure_eq_ok, Bool.and_eq_true, beq_iff_eq] at results
  obtain ⟨⟨distributed, regrouped⟩, _⟩ := results
  have reachable : aig.Reachable := evolves_of_session ended
  obtain ⟨limited, truncated⟩ := optimize_truncated reachable {}
  obtain ⟨same, counts⟩ :=
    (truncated 20 20 (some 1) (some 5) first second early late).2 20 whole optimized
  exact ⟨aig, first, second, whole, reachable, early, late, optimized, distributed, regrouped,
    limited 20 (some 1) first early 1 rfl, same, counts⟩

end Rewriting

end AndInverter
