import ForwardChaining.Proofs.Positive
import ForwardChaining.Proofs.Productive

/-!
# Confluence — all orders of firing end in the least closed fact base

Rules whose conditions are tuples and guards are monotone. So below a closed fact base (one without
candidates) no step fails and no step leaves it, whatever is chosen. If one run of such rules comes
to a fixpoint, every other run does, with the same facts, and these are the least that contain the
initial facts and are closed (`Engine.fixpoint_unique`).
-/

namespace ForwardChaining

/-! ## 1. Strategies that choose what is there -/

section Choices

variable {σ : Type}

/-- The states in which a strategy can come to be, when it is asked about some candidates each
time. -/
inductive Strategy.Reaches (strategy : Strategy σ) (start : σ) : σ → Prop where
  | start : Reaches strategy start start
  | ask {state : σ} (cs : List Candidate) (hcs : cs ≠ []) (h : Reaches strategy start state) :
      Reaches strategy start (strategy cs state).2

/-- Whether a strategy always chooses one of the candidates. -/
def Strategy.InRange (strategy : Strategy σ) (start : σ) : Prop :=
  ∀ state, strategy.Reaches start state → ∀ cs, cs ≠ [] → (strategy cs state).1 < cs.length

theorem Engine.reaches_step (e : Engine) {strategy : Strategy σ} {start state : σ}
    (h : strategy.Reaches start state) (F : FactBase) :
    strategy.Reaches start (e.step strategy F state).2 := by
  rcases e.step_cases strategy F state with
    ⟨err, _, hs⟩ | ⟨_, hs⟩ | ⟨cs, _, hne, ⟨_, hs⟩ | ⟨c, _, hs⟩⟩
  · rw [hs]
    exact h
  · rw [hs]
    exact h
  · rw [hs]
    exact h.ask cs hne
  · rw [hs]
    exact h.ask cs hne

theorem Run.reaches_step {r : Run σ} {start : σ} (h : r.strategy.Reaches start r.state) :
    r.strategy.Reaches start r.step.2.state := by
  -- the state of a run is what the step of its engine leaves
  have hnext := r.engine.reaches_step h r.facts
  rcases r.step_cases with ⟨_, hs⟩ | ⟨_, ⟨G, s, he, hs⟩ | ⟨s, he, hs⟩ | ⟨err, s, he, hs⟩⟩
  · rw [hs]
    exact h
  all_goals
    rw [he] at hnext
    rw [hs]
    exact hnext

theorem Run.reaches_after (r : Run σ) (n : Nat) :
    r.strategy.Reaches r.state (r.after n).state := by
  induction n with
  | zero => exact Strategy.Reaches.start
  | succ n ih =>
    rw [← strategy_after r n] at ih ⊢
    exact reaches_step ih

end Choices

/-! ## 2. Below a closed fact base -/

section Closed

variable {rules : List Rule} {F G M : FactBase} {σ : Type}

/-- Over the facts of a closed fact base, the conditions of a rule can be solved, and the conclusions
of the solutions are in the closed fact base. -/
theorem Engine.solutions_of_subset_closed (hpos : ∀ r ∈ rules, r.isPositive)
    (hM : (productive rules).candidates M = .ok []) (h : G ⊆ M) {r : Rule} (hr : r ∈ rules) :
    ∃ sols, r.solutions .builtin G = .ok sols ∧
      ∀ b ∈ sols, ∀ t ∈ r.conclusions, ∃ f ∈ M, t.ground b = .ok f := by
  -- fewer facts give fewer solutions, and the conclusions of all are known in `M`
  have ⟨sols, hsols, hclosed⟩ := (candidates_eq_nil_iff rfl).1 hM r hr
  have ⟨sols', hsols', hsub⟩ := Rule.solutions_mono (hpos r hr) h hsols
  exact ⟨sols', hsols', fun b hb => hclosed b (hsub hb)⟩

theorem Engine.exists_candidates_of_subset_closed (hpos : ∀ r ∈ rules, r.isPositive)
    (hM : (productive rules).candidates M = .ok []) (h : G ⊆ M) :
    ∃ cs, (productive rules).candidates G = .ok cs := by
  refine exists_candidates_eq_ok_iff.2 fun r hr => ?_
  have ⟨sols, hsols, hclosed⟩ := solutions_of_subset_closed hpos hM h hr
  refine ⟨sols, hsols, fun b hb => ?_⟩
  -- an offer fails only at a conclusion without a value, and there is none
  have ⟨p, hp⟩ : ∃ p, r.isProductive b G = .ok p := by
    apply Rule.exists_isProductive_eq_ok
    intro t ht
    have ⟨f, _, hf⟩ := hclosed b hb t ht
    exact ⟨f, hf⟩
  exact ⟨p, (offers_eq_ok_iff rfl).2 hp⟩

theorem Engine.fire_of_subset_closed (hpos : ∀ r ∈ rules, r.isPositive)
    (hM : (productive rules).candidates M = .ok []) (h : G ⊆ M) {cs : List Candidate}
    (hcs : (productive rules).candidates G = .ok cs) {c : Candidate} (hc : c ∈ cs) :
    ∃ H, c.fire G = .ok H ∧ H ⊆ M := by
  have ⟨hr, sols, hsols, hb, _⟩ := (mem_of_candidates_eq_ok hcs c).1 hc
  have ⟨sols', hsols', hclosed⟩ :=
    solutions_of_subset_closed hpos hM h (List.mem_of_getElem? hr)
  cases hsols.symm.trans hsols'
  have hground : ∀ t ∈ c.rule.conclusions, ∃ f ∈ M, t.ground c.binding = .ok f :=
    hclosed c.binding hb
  have ⟨fs, hfs⟩ : ∃ fs, c.rule.instances c.binding = .ok fs := by
    refine Rule.exists_instances_eq_ok_iff.2 fun t ht => ?_
    have ⟨f, _, hf⟩ := hground t ht
    exact ⟨f, hf⟩
  -- what is added is known in `M` already
  have hmem : ∀ f ∈ fs, f ∈ M := fun f hf => by
    have ⟨t, ht, hft⟩ := (Rule.mem_of_instances_eq_ok hfs f).1 hf
    have ⟨f', hf', hft'⟩ := hground t ht
    cases hft.symm.trans hft'
    exact hf'
  exact ⟨G.union fs, Candidate.fire_eq_ok_iff.2 ⟨fs, hfs, rfl⟩, FactBase.union_subset h hmem⟩

theorem Run.step_subset_closed (hpos : ∀ r ∈ rules, r.isPositive)
    (hM : (Engine.productive rules).candidates M = .ok []) {r : Run σ}
    (he : r.engine = .productive rules) (h : r.facts ⊆ M) : r.step.2.facts ⊆ M := by
  rcases r.facts_step_cases with hs | ⟨_, cs, hcs, c, hc, hfire⟩
  · rw [hs]
    exact h
  · rw [he] at hcs
    have ⟨H, hH, hsub⟩ := Engine.fire_of_subset_closed hpos hM h hcs hc
    cases hfire.symm.trans hH
    exact hsub

theorem Run.after_subset_closed (hpos : ∀ r ∈ rules, r.isPositive)
    (hM : (Engine.productive rules).candidates M = .ok []) {r : Run σ}
    (he : r.engine = .productive rules) (h : r.facts ⊆ M) (n : Nat) : (r.after n).facts ⊆ M := by
  have hinv := after_induction (r := r) (P := fun s => s.engine = .productive rules ∧ s.facts ⊆ M)
    ⟨he, h⟩ (fun s ⟨hs, hsub⟩ =>
      ⟨(engine_step s).trans hs, step_subset_closed hpos hM hs hsub⟩) n
  exact hinv.2

theorem Run.answer_ne_error (hpos : ∀ r ∈ rules, r.isPositive)
    (hM : (Engine.productive rules).candidates M = .ok []) {r : Run σ}
    (he : r.engine = .productive rules) (h : r.facts ⊆ M)
    (hrange : r.strategy.InRange r.state) (n : Nat) (err : InferenceError) :
    r.answer n ≠ .error err := by
  intro herr
  have hsub := after_subset_closed hpos hM he h n
  have hstep := engine_step_eq_error herr
  rw [engine_after, strategy_after, he] at hstep
  -- a step can fail in three ways, and each is excluded below `M`
  rcases Engine.exists_of_step_eq_error hstep with
    hcs | ⟨cs, hcs, hne, ⟨hlen, _⟩ | ⟨c, hc, hfire⟩⟩
  · have ⟨cs, hcs'⟩ := Engine.exists_candidates_of_subset_closed hpos hM hsub
    cases hcs.symm.trans hcs'
  · have hlt := hrange _ (reaches_after r n) cs hne
    omega
  · have ⟨H, hH, _⟩ := Engine.fire_of_subset_closed hpos hM hsub hcs hc
    cases hfire.symm.trans hH

end Closed

/-! ## 3. The least closed fact base -/

section Least

variable {rules : List Rule} {F₀ M : FactBase} {σ : Type}

theorem Run.exists_answer_eq_fixpoint (hpos : ∀ r ∈ rules, r.isPositive)
    (hM : (Engine.productive rules).candidates M = .ok []) {r : Run σ}
    (he : r.engine = .productive rules) (hphase : r.phase ≠ .finished) (h : r.facts ⊆ M)
    (hrange : r.strategy.InRange r.state) :
    ∃ m, m + r.facts.size ≤ M.size ∧ (∀ k < m, r.answer k = .ok .derived) ∧
      r.answer m = .ok .fixpoint := by
  have hprod : r.engine.productiveOnly = true := by rw [he]; rfl
  -- each derivation adds a fact, and all facts are in `M`
  have hroom : ∀ n, (∀ k < n, r.answer k = .ok .derived) → n + r.facts.size ≤ M.size := by
    intro n hn
    have hsize := size_add_derivations_le hprod n
    have hle := FactBase.size_le_of_subset (after_subset_closed hpos hM he h n)
    rw [derivations_of_forall hn] at hsize
    omega
  rcases r.first_answer_ne_derived (M.size + 1) with hall | ⟨m, _, hlt, hm⟩
  · have := hroom _ hall
    omega
  · refine ⟨m, hroom m hlt, hlt, ?_⟩
    cases hans : r.answer m with
    | error err => exact absurd hans (answer_ne_error hpos hM he h hrange m err)
    | ok o =>
      cases o with
      | derived => exact absurd hans hm
      | fixpoint => rfl
      | done => exact absurd (phase_eq_of_step_eq_done hans) (phase_after_ne_finished hphase hlt)

/-- If one productive run of rules with positive conditions comes to a fixpoint, every run that
chooses from the candidates does: without errors, after at most as many steps as facts are missing,
and with the same facts. They are the least facts that contain the initial ones and leave nothing to
do. -/
theorem Engine.fixpoint_unique (hpos : ∀ r ∈ rules, r.isPositive) {strategy : Strategy σ}
    {state : σ} {n : Nat} (hfix : ((productive rules).run strategy state F₀).answer n = .ok .fixpoint)
    {F : FactBase} (hF : (((productive rules).run strategy state F₀).after n).facts = F) :
    (∀ (τ : Type) (other : Strategy τ) (start : τ), other.InRange start →
      (∀ k err, ((productive rules).run other start F₀).answer k ≠ .error err) ∧
      ∃ m, m + F₀.size ≤ F.size ∧
        (∀ k < m, ((productive rules).run other start F₀).answer k = .ok .derived) ∧
        ((productive rules).run other start F₀).answer m = .ok .fixpoint ∧
        ∀ k, m ≤ k → (((productive rules).run other start F₀).after k).facts ≈ F) ∧
    ∀ (τ : Type) (other : Strategy τ) (start : τ) (M : FactBase), F₀ ⊆ M →
      ((productive rules).step other M start).1 = .ok none → F ⊆ M := by
  -- the first run stays below every closed fact base
  have hleast : ∀ M, F₀ ⊆ M → (productive rules).candidates M = .ok [] → F ⊆ M := by
    intro M hsub hM
    rw [← hF]
    exact Run.after_subset_closed hpos hM rfl hsub n
  have hsub : F₀ ⊆ F := by
    rw [← hF]
    exact Run.facts_subset_after ((productive rules).run strategy state F₀) n
  -- where it ends nothing is left to do, so it bounds the other runs
  have hclosed : (productive rules).candidates F = .ok [] := by
    have h := (Run.step_eq_fixpoint hfix).1
    rw [Run.engine_after, hF] at h
    exact h
  refine ⟨fun τ other start hrange => ?_, fun τ other start M hM hnone => ?_⟩
  · let r := (productive rules).run other start F₀
    refine ⟨Run.answer_ne_error (r := r) hpos hclosed rfl hsub hrange, ?_⟩
    have ⟨m, hm, hlt, hmfix⟩ :=
      Run.exists_answer_eq_fixpoint (r := r) hpos hclosed rfl (fun h => (nomatch h)) hsub hrange
    refine ⟨m, hm, hlt, hmfix, fun k hk => ⟨Run.after_subset_closed hpos hclosed rfl hsub k, ?_⟩⟩
    -- where the other run ends it is closed too, so it has all that the first run found
    have hclosed' : (productive rules).candidates (r.after m).facts = .ok [] := by
      have h := (Run.step_eq_fixpoint hmfix).1
      rw [Run.engine_after] at h
      exact h
    rw [Run.facts_after_fixpoint hmfix hk]
    exact hleast _ (Run.facts_subset_after r m) hclosed'
  · exact hleast M hM (step_eq_none_iff.1 hnone)

theorem Policy.reaches_last {state : Policy} (h : Strategy.Reaches Policy.choose .last state) :
    state = .last := by
  induction h with
  | start => rfl
  | ask cs hcs h ih => rw [ih]; rfl

theorem Policy.inRange_last : Strategy.InRange Policy.choose .last := by
  intro state h cs hcs
  rw [reaches_last h]
  show cs.length - 1 < cs.length
  have := List.length_pos_iff.2 hcs
  omega

/-- The paths of a graph between different nodes: `(edge ?x ?y)` gives `(path ?x ?y)`, and
`(path ?x ?y)` with `(edge ?y ?z)` and `(if (!= ?x ?z))` gives `(path ?x ?z)`. -/
def pathRules (edge path : Atom) : List Rule :=
  let x : Term := .var ⟨0⟩
  let y : Term := .var ⟨1⟩
  let z : Term := .var ⟨2⟩
  [{ conditions := [.tuple [.const edge, x, y]]
     conclusions := [[.const path, x, y]] },
   { conditions :=
       [.tuple [.const path, x, y], .tuple [.const edge, y, z],
        .guard (.binary (.equality .ne) (.leaf x) (.leaf z))]
     conclusions := [[.const path, x, z]] }]

/-- A ring of three nodes. -/
def ring (edge : Atom) : FactBase :=
  let node (n : Nat) : Atom := .symbol ⟨n⟩
  .ofList [[edge, node 4, node 5], [edge, node 5, node 6], [edge, node 6, node 4]]

/-- The paths of a ring, found by taking the first candidate each time and by taking the last. -/
theorem fixpoint_unique_ring :
    let rules := pathRules (.symbol ⟨2⟩) (.symbol ⟨3⟩)
    let F₀ := ring (.symbol ⟨2⟩)
    let first := (Engine.productive rules).run Policy.choose .first F₀
    let last := (Engine.productive rules).run Policy.choose .last F₀
    let F := (first.after 6).facts
    (∀ r ∈ rules, r.isPositive) ∧ first.answer 6 = .ok .fixpoint ∧
      Strategy.InRange Policy.choose .last ∧ (∀ k err, last.answer k ≠ .error err) ∧
      ∃ m, m + F₀.size ≤ F.size ∧ (∀ k < m, last.answer k = .ok .derived) ∧
        last.answer m = .ok .fixpoint ∧ ∀ k, m ≤ k → (last.after k).facts ≈ F :=
  ⟨by decide, by decide, Policy.inRange_last,
    (Engine.fixpoint_unique (n := 6) (by decide) (by decide) rfl).1 _ _ _ Policy.inRange_last⟩

end Least

end ForwardChaining
