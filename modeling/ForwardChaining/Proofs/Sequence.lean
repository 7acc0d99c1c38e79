import ForwardChaining.Chaining.Run
import ForwardChaining.Proofs.Firing

/-!
# Sequence — the runs of an engine, step by step

A run is followed through the calls of `Run.step`: `Run.after` is the run after some calls and
`Run.answer` what the next call answers. Whatever a run does is one of the cases of `Run.step_cases`,
so a property of all its states is shown for the start and for one step (`Run.after_induction`).
-/

namespace ForwardChaining

/-! ## 1. Transitions -/

namespace Engine

variable {σ : Type}

/-- A step fires the candidate at the index that the strategy answers. -/
theorem step_of_getElem? {e : Engine} {strategy : Strategy σ} {F : FactBase} {state : σ}
    {cs : List Candidate} {c : Candidate} (hcs : e.candidates F = .ok cs)
    (hi : cs[(strategy cs state).1]? = some c) :
    e.step strategy F state = ((c.fire F).map some, (strategy cs state).2) := by
  cases cs with
  | nil => cases hi
  | cons d ds =>
    simp only [step, select, hcs, hi]
    show (do let G ← c.fire F; return some G, _) = _
    cases c.fire F with
    | error err => rfl
    | ok G => rfl

/-- All that a step of an engine can do. -/
theorem step_cases (e : Engine) (strategy : Strategy σ) (F : FactBase) (state : σ) :
    (∃ err, e.candidates F = .error err ∧ e.step strategy F state = (.error err, state)) ∨
      (e.candidates F = .ok [] ∧ e.step strategy F state = (.ok none, state)) ∨
      ∃ cs, e.candidates F = .ok cs ∧ cs ≠ [] ∧
        ((cs.length ≤ (strategy cs state).1 ∧ e.step strategy F state
            = (.error (.invalidChoice (strategy cs state).1 cs.length), (strategy cs state).2)) ∨
          ∃ c ∈ cs, e.step strategy F state = ((c.fire F).map some, (strategy cs state).2)) := by
  cases hcs : e.candidates F with
  | error err => exact Or.inl ⟨err, rfl, by simp only [step, select, hcs]; rfl⟩
  | ok cs =>
    cases cs with
    | nil => exact Or.inr (Or.inl ⟨rfl, by simp only [step, select, hcs]; rfl⟩)
    | cons c cs =>
      refine Or.inr (Or.inr ⟨c :: cs, rfl, List.cons_ne_nil _ _, ?_⟩)
      -- the strategy is asked, and its answer may be no position of the list
      cases hi : (c :: cs)[(strategy (c :: cs) state).1]? with
      | none =>
        refine Or.inl ⟨List.getElem?_eq_none_iff.1 hi, ?_⟩
        simp only [step, select, hcs, hi]
        rfl
      | some chosen => exact Or.inr ⟨chosen, List.mem_of_getElem? hi, step_of_getElem? hcs hi⟩

theorem exists_of_step_eq_some {e : Engine} {strategy : Strategy σ} {F G : FactBase} {state : σ}
    (h : (e.step strategy F state).1 = .ok (some G)) :
    ∃ cs, e.candidates F = .ok cs ∧ ∃ c ∈ cs, c.fire F = .ok G := by
  rcases e.step_cases strategy F state with
    ⟨err, _, hs⟩ | ⟨_, hs⟩ | ⟨cs, hcs, _, ⟨_, hs⟩ | ⟨c, hc, hs⟩⟩
  · rw [hs] at h; cases h
  · rw [hs] at h; cases h
  · rw [hs] at h; cases h
  · rw [hs] at h
    -- the step yields what firing yields
    obtain ⟨G', hG', hsome⟩ := map_eq_ok_iff.1 h
    cases hsome
    exact ⟨cs, hcs, c, hc, hG'⟩

/-- A step fails where the candidates cannot be enumerated, at a choice that is not there, or at the
candidate that was chosen. -/
theorem exists_of_step_eq_error {e : Engine} {strategy : Strategy σ} {F : FactBase} {state : σ}
    {err : InferenceError} (h : (e.step strategy F state).1 = .error err) :
    e.candidates F = .error err ∨ ∃ cs, e.candidates F = .ok cs ∧ cs ≠ [] ∧
      ((cs.length ≤ (strategy cs state).1 ∧
          err = .invalidChoice (strategy cs state).1 cs.length) ∨
        ∃ c ∈ cs, c.fire F = .error err) := by
  rcases e.step_cases strategy F state with
    ⟨err', hcs, hs⟩ | ⟨_, hs⟩ | ⟨cs, hcs, hne, ⟨hlen, hs⟩ | ⟨c, hc, hs⟩⟩
  · rw [hs] at h
    cases h
    exact Or.inl hcs
  · rw [hs] at h; cases h
  · rw [hs] at h
    exact Or.inr ⟨cs, hcs, hne, Or.inl ⟨hlen, (Except.error.inj h).symm⟩⟩
  · rw [hs] at h
    exact Or.inr ⟨cs, hcs, hne, Or.inr ⟨c, hc, map_eq_error_iff.1 h⟩⟩

theorem step_eq_none_iff {e : Engine} {strategy : Strategy σ} {F : FactBase} {state : σ} :
    (e.step strategy F state).1 = .ok none ↔ e.candidates F = .ok [] := by
  rcases e.step_cases strategy F state with
    ⟨err, hcs, hs⟩ | ⟨hcs, hs⟩ | ⟨cs, hcs, hne, ⟨_, hs⟩ | ⟨c, _, hs⟩⟩
  · rw [hs, hcs]
    exact ⟨fun h => (nomatch h), fun h => (nomatch h)⟩
  · rw [hs, hcs]
    exact ⟨fun _ => rfl, fun _ => rfl⟩
  · rw [hs, hcs]
    exact ⟨fun h => (nomatch h), fun h => absurd (Except.ok.inj h) hne⟩
  · rw [hs, hcs]
    refine ⟨fun h => ?_, fun h => absurd (Except.ok.inj h) hne⟩
    obtain ⟨G, _, hsome⟩ := map_eq_ok_iff.1 h
    cases hsome

end Engine

/-! ## 2. Runs -/

/-- The run of an engine from given facts, before its first step. -/
def Engine.run {σ : Type} (e : Engine) (strategy : Strategy σ) (state : σ) (F : FactBase) : Run σ where
  engine := e
  strategy := strategy
  state := state
  facts := F

namespace Run

variable {σ : Type}

/-- All that a step of a run can do. -/
theorem step_cases (r : Run σ) :
    (r.phase = .finished ∧ r.step = (.ok .done, r)) ∨
      r.phase ≠ .finished ∧
        ((∃ G state, r.engine.step r.strategy r.facts r.state = (.ok (some G), state) ∧
            r.step = (.ok .derived,
              { r with facts := G, state := state, steps := r.steps + 1, phase := .running })) ∨
          (∃ state, r.engine.step r.strategy r.facts r.state = (.ok none, state) ∧
            r.step = (.ok .fixpoint, { r with state := state, phase := .finished })) ∨
          ∃ err state, r.engine.step r.strategy r.facts r.state = (.error err, state) ∧
            r.step = (.error err, { r with state := state, phase := .finished })) := by
  by_cases hp : r.phase = .finished
  · exact Or.inl ⟨hp, by rw [step, if_pos hp]⟩
  · refine Or.inr ⟨hp, ?_⟩
    rw [step, if_neg hp]
    have ⟨result, state⟩ := r.engine.step r.strategy r.facts r.state
    cases result with
    | error err => exact Or.inr (Or.inr ⟨err, state, rfl, rfl⟩)
    | ok o =>
      cases o with
      | none => exact Or.inr (Or.inl ⟨state, rfl, rfl⟩)
      | some G => exact Or.inl ⟨G, state, rfl, rfl⟩

/-- A run that has not ended fires the candidate that its strategy chooses. -/
theorem step_of_getElem? {r : Run σ} {cs : List Candidate} {c : Candidate} {G : FactBase}
    (hphase : r.phase ≠ .finished) (hcs : r.engine.candidates r.facts = .ok cs)
    (hi : cs[(r.strategy cs r.state).1]? = some c) (hfire : c.fire r.facts = .ok G) :
    r.step = (.ok .derived,
      { r with
        facts := G, state := (r.strategy cs r.state).2, steps := r.steps + 1, phase := .running }) := by
  have hstep : r.engine.step r.strategy r.facts r.state = (.ok (some G), (r.strategy cs r.state).2) := by
    rw [Engine.step_of_getElem? hcs hi, hfire]
    rfl
  unfold step
  rw [if_neg hphase, hstep]

theorem exists_of_step_eq_derived {r : Run σ} (h : r.step.1 = .ok .derived) :
    ∃ G state, r.engine.step r.strategy r.facts r.state = (.ok (some G), state) ∧
      r.step.2 = { r with facts := G, state := state, steps := r.steps + 1, phase := .running } := by
  rcases r.step_cases with ⟨_, hs⟩ | ⟨_, ⟨G, s, he, hs⟩ | ⟨s, _, hs⟩ | ⟨err, s, _, hs⟩⟩
  · rw [hs] at h; cases h
  · exact ⟨G, s, he, congrArg Prod.snd hs⟩
  · rw [hs] at h; cases h
  · rw [hs] at h; cases h

theorem exists_of_step_eq_fixpoint {r : Run σ} (h : r.step.1 = .ok .fixpoint) :
    ∃ state, r.engine.step r.strategy r.facts r.state = (.ok none, state) ∧
      r.step.2 = { r with state := state, phase := .finished } := by
  rcases r.step_cases with ⟨_, hs⟩ | ⟨_, ⟨G, s, _, hs⟩ | ⟨s, he, hs⟩ | ⟨err, s, _, hs⟩⟩
  · rw [hs] at h; cases h
  · rw [hs] at h; cases h
  · exact ⟨s, he, congrArg Prod.snd hs⟩
  · rw [hs] at h; cases h

theorem engine_step_eq_error {r : Run σ} {err : InferenceError} (h : r.step.1 = .error err) :
    (r.engine.step r.strategy r.facts r.state).1 = .error err := by
  rcases r.step_cases with ⟨_, hs⟩ | ⟨_, ⟨G, s, _, hs⟩ | ⟨s, _, hs⟩ | ⟨err', s, he, hs⟩⟩
  · rw [hs] at h; cases h
  · rw [hs] at h; cases h
  · rw [hs] at h; cases h
  · rw [hs] at h
    cases h
    exact congrArg Prod.fst he

theorem phase_eq_of_step_eq_done {r : Run σ} (h : r.step.1 = .ok .done) : r.phase = .finished := by
  rcases r.step_cases with ⟨hp, _⟩ | ⟨_, ⟨G, s, _, hs⟩ | ⟨s, _, hs⟩ | ⟨err, s, _, hs⟩⟩
  · exact hp
  · rw [hs] at h; cases h
  · rw [hs] at h; cases h
  · rw [hs] at h; cases h

/-- The run after `n` calls of `step`. -/
def after (r : Run σ) : Nat → Run σ
  | 0 => r
  | n + 1 => (r.after n).step.2

/-- What the call of `step` after `n` others answers. -/
def answer (r : Run σ) (n : Nat) : Except InferenceError Progress :=
  (r.after n).step.1

theorem after_succ (r : Run σ) (n : Nat) : r.after (n + 1) = (r.after n).step.2 := rfl

theorem after_step (r : Run σ) (n : Nat) : r.step.2.after n = r.after (n + 1) := by
  induction n with
  | zero => rfl
  | succ n ih => rw [after_succ, ih, after_succ r (n + 1)]

/-- What holds of the start and is kept by every step holds after any number of steps. -/
theorem after_induction {P : Run σ → Prop} {r : Run σ} (start : P r)
    (step : ∀ s : Run σ, P s → P s.step.2) (n : Nat) : P (r.after n) := by
  induction n with
  | zero => exact start
  | succ n ih => exact step _ ih

theorem engine_step (r : Run σ) : r.step.2.engine = r.engine := by
  rcases r.step_cases with ⟨_, h⟩ | ⟨_, ⟨G, s, _, h⟩ | ⟨s, _, h⟩ | ⟨err, s, _, h⟩⟩
  all_goals rw [h]

theorem strategy_step (r : Run σ) : r.step.2.strategy = r.strategy := by
  rcases r.step_cases with ⟨_, h⟩ | ⟨_, ⟨G, s, _, h⟩ | ⟨s, _, h⟩ | ⟨err, s, _, h⟩⟩
  all_goals rw [h]

theorem engine_after (r : Run σ) (n : Nat) : (r.after n).engine = r.engine :=
  after_induction (P := fun s => s.engine = r.engine) rfl (fun s h => (engine_step s).trans h) n

theorem strategy_after (r : Run σ) (n : Nat) : (r.after n).strategy = r.strategy :=
  after_induction (P := fun s => s.strategy = r.strategy) rfl
    (fun s h => (strategy_step s).trans h) n

theorem facts_step_cases (r : Run σ) :
    r.step.2.facts = r.facts ∨ r.step.1 = .ok .derived ∧
      ∃ cs, r.engine.candidates r.facts = .ok cs ∧ ∃ c ∈ cs, c.fire r.facts = .ok r.step.2.facts := by
  rcases r.step_cases with ⟨_, h⟩ | ⟨_, ⟨G, s, hs, h⟩ | ⟨s, _, h⟩ | ⟨err, s, _, h⟩⟩
  · rw [h]
    exact Or.inl rfl
  · rw [h]
    exact Or.inr ⟨rfl, Engine.exists_of_step_eq_some (congrArg Prod.fst hs)⟩
  · rw [h]
    exact Or.inl rfl
  · rw [h]
    exact Or.inl rfl

theorem facts_subset_step (r : Run σ) : r.facts ⊆ r.step.2.facts := by
  rcases r.facts_step_cases with h | ⟨_, cs, _, c, _, hc⟩
  · rw [h]
    exact FactBase.subset_refl _
  · exact Candidate.subset_of_fire_eq_ok hc

theorem facts_subset_after (r : Run σ) (n : Nat) : r.facts ⊆ (r.after n).facts :=
  after_induction (P := fun s => r.facts ⊆ s.facts) (FactBase.subset_refl _)
    (fun s h => FactBase.subset_trans h (facts_subset_step s)) n

theorem step_eq_fixpoint {r : Run σ} (h : r.step.1 = .ok .fixpoint) :
    r.engine.candidates r.facts = .ok [] ∧ r.step.2.facts = r.facts := by
  have ⟨s, he, hs⟩ := exists_of_step_eq_fixpoint h
  rw [hs]
  exact ⟨Engine.step_eq_none_iff.1 (congrArg Prod.fst he), rfl⟩

theorem step_of_candidates_eq_nil {r : Run σ} (hphase : r.phase ≠ .finished)
    (hcs : r.engine.candidates r.facts = .ok []) : r.step.1 = .ok .fixpoint := by
  have hnone : (r.engine.step r.strategy r.facts r.state).1 = .ok none := Engine.step_eq_none_iff.2 hcs
  rcases r.step_cases with ⟨hp, _⟩ | ⟨_, ⟨G, s, he, _⟩ | ⟨s, _, hs⟩ | ⟨err, s, he, _⟩⟩
  · exact absurd hp hphase
  · rw [he] at hnone; cases hnone
  · rw [hs]
  · rw [he] at hnone; cases hnone

theorem step_of_finished {r : Run σ} (h : r.phase = .finished) : r.step = (.ok .done, r) := by
  rw [step, if_pos h]

theorem after_of_finished {r : Run σ} (h : r.phase = .finished) (n : Nat) : r.after n = r := by
  induction n with
  | zero => rfl
  | succ n ih => rw [after_succ, ih, step_of_finished h]

theorem after_add (r : Run σ) (m n : Nat) : r.after (m + n) = (r.after m).after n := by
  induction n with
  | zero => rfl
  | succ n ih => rw [← Nat.add_assoc, after_succ, ih, after_succ]

theorem phase_after_ne_finished {r : Run σ} (hr : r.phase ≠ .finished) {n : Nat}
    (h : ∀ k < n, r.answer k = .ok .derived) : (r.after n).phase ≠ .finished := by
  -- the last of the derivations left the run in the running phase
  cases n with
  | zero => exact hr
  | succ n =>
    have ⟨G, s, _, hs⟩ := exists_of_step_eq_derived (h n (Nat.lt_succ_self n))
    rw [after_succ, hs]
    exact fun hp => (nomatch hp)

theorem facts_after_fixpoint {r : Run σ} {m : Nat} (h : r.answer m = .ok .fixpoint) {k : Nat}
    (hk : m ≤ k) : (r.after k).facts = (r.after m).facts := by
  -- the call that reports the fixpoint ends the run and leaves the facts alone
  obtain ⟨j, rfl⟩ := Nat.exists_eq_add_of_le hk
  rw [after_add]
  cases j with
  | zero => rfl
  | succ j =>
    have ⟨s, _, hs⟩ := exists_of_step_eq_fixpoint h
    rw [← after_step, hs, after_of_finished rfl]

/-! ## 3. Counting derivations -/

/-- How many of the first `n` calls of `step` derive facts. -/
def derivations (r : Run σ) (n : Nat) : Nat :=
  (List.range n).countP fun k => r.answer k = .ok .derived

theorem derivations_succ (r : Run σ) (n : Nat) :
    r.derivations (n + 1) = r.derivations n + if r.answer n = .ok .derived then 1 else 0 := by
  rw [derivations, List.range_succ, List.countP_append, List.countP_singleton]
  simp only [decide_eq_true_iff]
  rfl

theorem derivations_of_forall {r : Run σ} {n : Nat} (h : ∀ k < n, r.answer k = .ok .derived) :
    r.derivations n = n := by
  rw [derivations, List.countP_eq_length.2, List.length_range]
  exact fun k hk => decide_eq_true (h k (List.mem_range.1 hk))

theorem first_answer_ne_derived (r : Run σ) (n : Nat) :
    (∀ k < n, r.answer k = .ok .derived) ∨
      ∃ m < n, (∀ k < m, r.answer k = .ok .derived) ∧ r.answer m ≠ .ok .derived := by
  induction n with
  | zero => exact Or.inl fun k hk => absurd hk (Nat.not_lt_zero k)
  | succ n ih =>
    rcases ih with h | ⟨m, hm, h⟩
    · by_cases hn : r.answer n = .ok .derived
      · refine Or.inl fun k hk => ?_
        rcases Nat.lt_succ_iff_lt_or_eq.1 hk with hk | rfl
        · exact h k hk
        · exact hn
      · exact Or.inr ⟨n, Nat.lt_succ_self n, h, hn⟩
    · exact Or.inr ⟨m, Nat.lt_succ_of_lt hm, h⟩

/-! ## 4. Other ways to move a run -/

theorem answer_step (r : Run σ) (n : Nat) : r.step.2.answer n = r.answer (n + 1) := by
  rw [answer, after_step, answer]

theorem complete_of_derived {r : Run σ} (h : r.step.1 = .ok .derived) (n : Nat) :
    r.complete (n + 1) = r.step.2.complete n := by
  have hs : r.step = (.ok .derived, r.step.2) := Prod.ext h rfl
  rw [complete, hs]

theorem complete_of_error {r : Run σ} {err : InferenceError} (h : r.step.1 = .error err) (n : Nat) :
    r.complete (n + 1) = .error err := by
  have hs : r.step = (.error err, r.step.2) := Prod.ext h rfl
  rw [complete, hs]

theorem complete_of_ended {r : Run σ} (h : r.step.1 = .ok .fixpoint ∨ r.step.1 = .ok .done)
    (n : Nat) : r.complete (n + 1) = .ok ⟨r.step.2.facts, r.step.2.steps, true⟩ := by
  rcases h with h | h
  · have hs : r.step = (.ok .fixpoint, r.step.2) := Prod.ext h rfl
    rw [complete, hs]
  · have hs : r.step = (.ok .done, r.step.2) := Prod.ext h rfl
    rw [complete, hs]

/-- Completing a run takes its steps up to the first that derives nothing. -/
theorem complete_cases (r : Run σ) (n : Nat) :
    ((∀ k < n, r.answer k = .ok .derived) ∧
        r.complete n = .ok ⟨(r.after n).facts, (r.after n).steps, false⟩) ∨
      ∃ m < n, (∀ k < m, r.answer k = .ok .derived) ∧
        ((∃ err, r.answer m = .error err ∧ r.complete n = .error err) ∨
          ((r.answer m = .ok .fixpoint ∨ r.answer m = .ok .done) ∧
            r.complete n = .ok ⟨(r.after (m + 1)).facts, (r.after (m + 1)).steps, true⟩)) := by
  induction n generalizing r with
  | zero => exact Or.inl ⟨fun k hk => absurd hk (Nat.not_lt_zero k), rfl⟩
  | succ n ih =>
    -- the first call decides: it ends the run, or the others follow it
    have hnone : ∀ k < 0, r.answer k = .ok .derived := fun k hk => absurd hk (Nat.not_lt_zero k)
    cases h : r.step.1 with
    | error err =>
      exact Or.inr ⟨0, Nat.succ_pos n, hnone, Or.inl ⟨err, h, complete_of_error h n⟩⟩
    | ok o =>
      cases o with
      | fixpoint =>
        exact Or.inr ⟨0, Nat.succ_pos n, hnone, Or.inr ⟨Or.inl h, complete_of_ended (Or.inl h) n⟩⟩
      | done =>
        exact Or.inr ⟨0, Nat.succ_pos n, hnone, Or.inr ⟨Or.inr h, complete_of_ended (Or.inr h) n⟩⟩
      | derived =>
        -- the calls of the run are this one and those of the run after it
        have hlift : ∀ m, (∀ k < m, r.step.2.answer k = .ok .derived) →
            ∀ k < m + 1, r.answer k = .ok .derived := by
          intro m hm k hk
          cases k with
          | zero => exact h
          | succ k =>
            rw [← answer_step]
            exact hm k (Nat.lt_of_succ_lt_succ hk)
        rw [complete_of_derived h]
        rcases ih r.step.2 with ⟨hall, hc⟩ | ⟨m, hm, hlt, hc⟩
        · rw [after_step] at hc
          exact Or.inl ⟨hlift n hall, hc⟩
        · rw [answer_step, after_step] at hc
          exact Or.inr ⟨m + 1, Nat.succ_lt_succ hm, hlift m hlt, hc⟩

theorem next_cases (r : Run σ) :
    (r.phase = .initial ∧ r.next = (some (.ok r.facts), { r with phase := .running })) ∨
      r.phase ≠ .initial ∧ r.next.2 = r.step.2 ∧
        ((r.step.1 = .ok .derived ∧ r.next.1 = some (.ok r.step.2.facts)) ∨
          ((r.step.1 = .ok .fixpoint ∨ r.step.1 = .ok .done) ∧ r.next.1 = none) ∨
          ∃ err, r.step.1 = .error err ∧ r.next.1 = some (.error err)) := by
  -- the initial facts come without a step
  by_cases hp : r.phase = .initial
  · exact Or.inl ⟨hp, by rw [next, if_pos hp]⟩
  · refine Or.inr ⟨hp, ?_⟩
    rw [next, if_neg hp]
    have ⟨result, s⟩ := r.step
    cases result with
    | error err => exact ⟨rfl, Or.inr (Or.inr ⟨err, rfl, rfl⟩)⟩
    | ok o =>
      cases o with
      | derived => exact ⟨rfl, Or.inl ⟨rfl, rfl⟩⟩
      | fixpoint => exact ⟨rfl, Or.inr (Or.inl ⟨Or.inl rfl, rfl⟩)⟩
      | done => exact ⟨rfl, Or.inr (Or.inl ⟨Or.inr rfl, rfl⟩)⟩

/-- The calls that move a run. -/
inductive Move where
  | step
  | next

/-- The run after a call. -/
def move (r : Run σ) : Move → Run σ
  | .step => r.step.2
  | .next => r.next.2

theorem engine_move (r : Run σ) (m : Move) : (r.move m).engine = r.engine := by
  cases m with
  | step => exact engine_step r
  | next =>
    show r.next.2.engine = r.engine
    rcases r.next_cases with ⟨_, h⟩ | ⟨_, h, _⟩
    · rw [h]
    · rw [h]
      exact engine_step r

theorem engine_moves (r : Run σ) (ms : List Move) : (ms.foldl move r).engine = r.engine := by
  induction ms generalizing r with
  | nil => rfl
  | cons m ms ih => rw [List.foldl_cons, ih, engine_move]

end Run

end ForwardChaining
