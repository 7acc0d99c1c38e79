import ForwardChaining.Domain.Simulation
import ForwardChaining.Proofs.Calls

/-!
# Budgets — the outcome of a simulation and the sequence of its states

`Run.next` called over and over yields the items of a run: the initial facts and then the facts after
each step, until the run ends. A simulation with a budget takes as many steps, so its outcome is read
off the items (`Simulation.outcome_of_items`). The step that finds the end of the run counts in the
budget, but not in the outcome.
-/

namespace ForwardChaining

variable {σ : Type}

/-! ## 1. Items -/

namespace Run

variable {r : Run σ} {F : Nat → FactBase} {k n : Nat}

open Move (attempts)

/-- What `next` yields after it has been called `i` times. -/
def item (r : Run σ) (i : Nat) : Option (Except InferenceError FactBase) :=
  ((List.replicate i Move.next).foldl move r).next.1

theorem item_zero (h : r.phase = .initial) : r.item 0 = some (.ok r.facts) :=
  congrArg Prod.fst (next_of_initial h)

theorem item_succ (h : r.phase = .initial) (i : Nat) :
    r.item (i + 1) = shown (r.answer i) (r.after (i + 1)).facts := by
  have hne : List.replicate (i + 1) Move.next ≠ [] := List.cons_ne_nil _ _
  have hattempts : attempts (List.replicate (i + 1) .next) = i := List.length_replicate
  rw [item, next_moves h hne, hattempts]

theorem shown_eq_ok_iff {answer : Except InferenceError Progress} {F G : FactBase} :
    shown answer F = some (.ok G) ↔ answer = .ok .derived ∧ F = G := by
  cases answer with
  | error err => simp only [shown, Option.some.injEq, reduceCtorEq, false_and]
  | ok o => cases o <;> simp [shown]

theorem shown_eq_none_iff {answer : Except InferenceError Progress} {F : FactBase} :
    shown answer F = none ↔ answer = .ok .fixpoint ∨ answer = .ok .done := by
  cases answer with
  | error err => simp [shown]
  | ok o => cases o <;> simp [shown]

theorem shown_eq_error_iff {answer : Except InferenceError Progress} {F : FactBase}
    {err : InferenceError} : shown answer F = some (.error err) ↔ answer = .error err := by
  cases answer with
  | error err => simp [shown]
  | ok o => cases o <;> simp [shown]

/-- The items up to some place are all there exactly if the steps before it derive facts. -/
theorem items_eq_ok_iff (h : r.phase = .initial) :
    (∀ i ≤ n, r.item i = some (.ok (F i))) ↔
      (∀ k < n, r.answer k = .ok .derived) ∧ ∀ i ≤ n, F i = (r.after i).facts := by
  constructor
  · intro hitems
    have hsucc : ∀ k < n, r.answer k = .ok .derived ∧ (r.after (k + 1)).facts = F (k + 1) := by
      intro k hk
      have hitem := hitems (k + 1) hk
      rw [item_succ h] at hitem
      exact shown_eq_ok_iff.1 hitem
    refine ⟨fun k hk => (hsucc k hk).1, fun i hi => ?_⟩
    cases i with
    | zero =>
      have hzero := (item_zero h).symm.trans (hitems 0 hi)
      injection hzero with hzero
      injection hzero with hzero
      exact hzero.symm
    | succ k => exact (hsucc k hi).2.symm
  · rintro ⟨hderived, hfacts⟩ i hi
    cases i with
    | zero => rw [item_zero h, hfacts 0 hi]; rfl
    | succ k =>
      rw [item_succ h, hderived k hi, hfacts (k + 1) hi]
      rfl

/-! ## 2. Budgets -/

/-- After as many derivations, what is left of the budget is for the steps from there. -/
theorem complete_add (h : ∀ k < n, r.answer k = .ok .derived) (j : Nat) :
    r.complete (n + j) = (r.after n).complete j := by
  induction n generalizing j with
  | zero => rw [Nat.zero_add]; rfl
  | succ n ih =>
    have hn : (r.after n).step.1 = .ok .derived := h n (Nat.lt_succ_self n)
    rw [Nat.add_assoc, Nat.add_comm 1 j, ih (fun k hk => h k (Nat.lt_succ_of_lt hk)),
      complete_of_derived hn]
    rfl

theorem complete_of_forall_derived (h : ∀ k < n, r.answer k = .ok .derived) :
    r.complete n = .ok ⟨(r.after n).facts, r.steps + n, false⟩ := by
  have hsteps : (r.after n).steps = r.steps + n := by rw [steps_after, derivations_of_forall h]
  rw [← hsteps]
  exact complete_add h 0

theorem complete_of_fixpoint (h : ∀ i < k, r.answer i = .ok .derived)
    (hk : r.answer k = .ok .fixpoint ∨ r.answer k = .ok .done) (hn : k < n) :
    r.complete n = .ok ⟨(r.after k).facts, r.steps + k, true⟩ := by
  obtain ⟨j, rfl⟩ := Nat.exists_eq_add_of_lt hn
  have hne : r.answer k ≠ .ok .derived := by
    rcases hk with hk | hk
    all_goals
      rw [hk]
      exact fun hd => (nomatch hd)
  have hkept := step_of_ne_derived hne
  rw [Nat.add_assoc, complete_add h, complete_of_ended hk, hkept.1, hkept.2.1, steps_after,
    derivations_of_forall h]

theorem complete_of_failure (h : ∀ i < k, r.answer i = .ok .derived) {err : InferenceError}
    (hk : r.answer k = .error err) (hn : k < n) : r.complete n = .error err := by
  obtain ⟨j, rfl⟩ := Nat.exists_eq_add_of_lt hn
  rw [Nat.add_assoc, complete_add h, complete_of_error hk]

/-- The first `n` steps derive facts, or one of them is the first that does not. -/
theorem ending_cases (r : Run σ) (n : Nat) :
    (∀ k < n, r.answer k = .ok .derived) ∨
      ∃ k < n, (∀ i < k, r.answer i = .ok .derived) ∧
        ((r.answer k = .ok .fixpoint ∨ r.answer k = .ok .done) ∨ ∃ err, r.answer k = .error err) := by
  rcases r.first_answer_ne_derived n with h | ⟨k, hk, hlt, hne⟩
  · exact Or.inl h
  · refine Or.inr ⟨k, hk, hlt, ?_⟩
    cases ha : r.answer k with
    | error err => exact Or.inr ⟨err, rfl⟩
    | ok o =>
      cases o with
      | derived => exact absurd ha hne
      | fixpoint => exact Or.inl (Or.inl rfl)
      | done => exact Or.inl (Or.inr rfl)

/-- What a larger budget adds to an outcome. -/
theorem complete_add_cases (r : Run σ) (n j : Nat) :
    (r.complete n = .ok ⟨(r.after n).facts, r.steps + n, false⟩ ∧
        r.complete (n + j) = (r.after n).complete j) ∨
      (∃ o, r.complete n = .ok o ∧ o.fixpoint = true ∧ r.complete (n + j) = .ok o) ∨
      ∃ err, r.complete n = .error err ∧ r.complete (n + j) = .error err := by
  rcases r.ending_cases n with h | ⟨k, hk, hlt, hend | ⟨err, herr⟩⟩
  · exact Or.inl ⟨complete_of_forall_derived h, complete_add h j⟩
  · right; left
    exact ⟨_, complete_of_fixpoint hlt hend hk, rfl,
      complete_of_fixpoint hlt hend (Nat.lt_add_right j hk)⟩
  · right; right
    exact ⟨err, complete_of_failure hlt herr hk, complete_of_failure hlt herr (Nat.lt_add_right j hk)⟩

end Run

/-! ## 3. Outcomes -/

namespace Simulation

/-- The outcome of a simulation is read off the items of its run: the last item that the budget allows,
the last one before the end, or the error after them. A larger budget goes on from the state where a
smaller one is used up, and without a budget nothing is tried. -/
theorem outcome_of_items (s : Simulation σ) :
    let r := s.start
    let n := s.maxSteps
    (∀ F : Nat → FactBase, (∀ i ≤ n, r.item i = some (.ok (F i))) → s.outcome = .ok ⟨F n, n, false⟩) ∧
      (∀ (F : Nat → FactBase) (k : Nat), k < n → (∀ i ≤ k, r.item i = some (.ok (F i))) →
        r.item (k + 1) = none → s.outcome = .ok ⟨F k, k, true⟩) ∧
      (∀ (F : Nat → FactBase) (k : Nat) (err : InferenceError), k < n →
        (∀ i ≤ k, r.item i = some (.ok (F i))) → r.item (k + 1) = some (.error err) →
        s.outcome = .error err) ∧
      -- one of these is the case
      ((∃ F : Nat → FactBase, ∀ i ≤ n, r.item i = some (.ok (F i))) ∨
        ∃ (F : Nat → FactBase) (k : Nat), k < n ∧ (∀ i ≤ k, r.item i = some (.ok (F i))) ∧
          (r.item (k + 1) = none ∨ ∃ err, r.item (k + 1) = some (.error err))) ∧
      (∀ j, let larger := { s with maxSteps := n + j }
        (s.outcome = .ok ⟨(r.after n).facts, n, false⟩ ∧ larger.outcome = (r.after n).complete j) ∨
          (∃ o, s.outcome = .ok o ∧ o.fixpoint = true ∧ larger.outcome = .ok o) ∨
          ∃ err, s.outcome = .error err ∧ larger.outcome = .error err) ∧
      { s with maxSteps := 0 }.outcome = .ok ⟨s.domain.initialFacts, 0, false⟩ := by
  intro r n
  have hr : r.phase = .initial := rfl
  have hsteps : ∀ k, r.steps + k = k := Nat.zero_add
  refine ⟨fun F hitems => ?_, fun F k hk hitems hnone => ?_, fun F k err hk hitems herr => ?_, ?_,
    fun j => ?_, rfl⟩
  · have ⟨hderived, hfacts⟩ := (Run.items_eq_ok_iff hr).1 hitems
    rw [outcome, Run.complete_of_forall_derived hderived, hsteps, hfacts n (Nat.le_refl n)]
  · have ⟨hderived, hfacts⟩ := (Run.items_eq_ok_iff hr).1 hitems
    rw [Run.item_succ hr, Run.shown_eq_none_iff] at hnone
    rw [outcome, Run.complete_of_fixpoint hderived hnone hk, hsteps, hfacts k (Nat.le_refl k)]
  · have ⟨hderived, _⟩ := (Run.items_eq_ok_iff hr).1 hitems
    rw [Run.item_succ hr, Run.shown_eq_error_iff] at herr
    exact Run.complete_of_failure hderived herr hk
  · let F (i : Nat) : FactBase := (r.after i).facts
    have hitems : ∀ k, (∀ i < k, r.answer i = .ok .derived) → ∀ i ≤ k, r.item i = some (.ok (F i)) :=
      fun k h => (Run.items_eq_ok_iff hr).2 ⟨h, fun i _ => rfl⟩
    rcases r.ending_cases n with h | ⟨k, hk, hlt, hend⟩
    · exact Or.inl ⟨F, hitems n h⟩
    · refine Or.inr ⟨F, k, hk, hitems k hlt, ?_⟩
      simp only [Run.item_succ hr, Run.shown_eq_none_iff, Run.shown_eq_error_iff]
      exact hend
  · have hcases := r.complete_add_cases n j
    rw [hsteps] at hcases
    exact hcases

end Simulation

/-- Two numbers for the rules that see them. -/
def Domain.numbers (number seen : Atom) : Domain where
  rules := seenRules number seen
  facts := [[number, .integer 1], [number, .integer 2]]

/-- The same numbers under a budget that is used up, under one that reaches the fixpoint, and with a
choice that is not there. -/
theorem outcome_of_items_numbers :
    let number : Atom := .symbol ⟨2⟩
    let seen : Atom := .symbol ⟨3⟩
    let s (choices : List Nat) (maxSteps : Nat) : Simulation Policy :=
      { domain := .numbers number seen
        strategy := Policy.choose
        state := .script choices
        maxSteps := maxSteps
        productiveOnly := true }
    let F (i : Nat) : FactBase := .ofList (List.take (i + 2)
      [[number, .integer 1], [number, .integer 2], [seen, .integer 1], [seen, .integer 2]])
    (∀ i ≤ 2, (s [0, 0] 3).start.item i = some (.ok (F i))) ∧
      (s [0, 0] 1).outcome = .ok ⟨F 1, 1, false⟩ ∧ (s [0, 0] 3).outcome = .ok ⟨F 2, 2, true⟩ ∧
      (s [0, 5] 3).outcome = .error (.invalidChoice 5 1) := by
  intro number seen s F
  have hitems : ∀ i ≤ 2, (s [0, 0] 3).start.item i = some (.ok (F i)) := by decide
  refine ⟨hitems, ?_, ?_, ?_⟩
  · exact (Simulation.outcome_of_items (s [0, 0] 1)).1 F fun i hi => hitems i (Nat.le_succ_of_le hi)
  · exact (Simulation.outcome_of_items (s [0, 0] 3)).2.1 F 2 (by decide) hitems (by decide)
  · exact (Simulation.outcome_of_items (s [0, 5] 3)).2.2.1 F 1 _ (by decide) (by decide) (by decide)

end ForwardChaining
