import ForwardChaining.Proofs.Sequence

/-!
# Endings — the calls before and after the end of a run

The first call of `step` that derives nothing ends the run: no later call changes it
(`Run.after_of_ended`), and every later call answers that it is done (`Run.answer_of_ended`). So the
calls that derive facts are the first ones (`Run.answer_eq_derived_iff`), and the facts of a run are those
after the derivations so far (`Run.facts_after_derivations`), which its step count counts
(`Run.steps_after`).
-/

namespace ForwardChaining

namespace Run

variable {σ : Type} {r : Run σ} {m n k : Nat}

/-- A call that derives nothing leaves the facts and their count alone and the run ended. -/
theorem step_of_ne_derived (h : r.step.1 ≠ .ok .derived) :
    r.step.2.facts = r.facts ∧ r.step.2.steps = r.steps ∧ r.step.2.phase = .finished := by
  rcases r.step_cases with ⟨hp, hs⟩ | ⟨_, ⟨G, s, _, hs⟩ | ⟨s, _, hs⟩ | ⟨err, s, _, hs⟩⟩
  · rw [hs]
    exact ⟨rfl, rfl, hp⟩
  · rw [hs] at h
    exact absurd rfl h
  · rw [hs]
    exact ⟨rfl, rfl, rfl⟩
  · rw [hs]
    exact ⟨rfl, rfl, rfl⟩

theorem phase_after_of_ended (h : r.answer m ≠ .ok .derived) (hk : m < k) :
    (r.after k).phase = .finished := by
  obtain ⟨j, rfl⟩ := Nat.exists_eq_add_of_le (Nat.succ_le_of_lt hk)
  have hfinished : (r.after (m + 1)).phase = .finished := (step_of_ne_derived h).2.2
  rw [after_add, after_of_finished hfinished]
  exact hfinished

theorem after_of_ended (h : r.answer m ≠ .ok .derived) (hk : m < k) :
    r.after k = r.after (m + 1) := by
  obtain ⟨j, rfl⟩ := Nat.exists_eq_add_of_le (Nat.succ_le_of_lt hk)
  rw [after_add]
  exact after_of_finished (phase_after_of_ended h (Nat.lt_succ_self m)) j

theorem answer_of_ended (h : r.answer m ≠ .ok .derived) (hk : m < k) : r.answer k = .ok .done := by
  rw [answer, step_of_finished (phase_after_of_ended h hk)]

/-- Before a call that makes a transition, all calls derived facts. -/
theorem answer_eq_derived_of_lt (h : r.answer m ≠ .ok .done) (hk : k < m) :
    r.answer k = .ok .derived := by
  by_contra hended
  exact h (answer_of_ended hended hk)

theorem derivations_of_ended (hlt : ∀ k < m, r.answer k = .ok .derived)
    (h : r.answer m ≠ .ok .derived) (hn : m ≤ n) : r.derivations n = m := by
  obtain ⟨j, rfl⟩ := Nat.exists_eq_add_of_le hn
  clear hn
  induction j with
  | zero => exact derivations_of_forall hlt
  | succ j ih =>
    have hnot : r.answer (m + j) ≠ .ok .derived := by
      cases j with
      | zero => exact h
      | succ j =>
        rw [answer_of_ended h (by omega)]
        exact fun hdone => (nomatch hdone)
    rw [← Nat.add_assoc, derivations_succ, ih, if_neg hnot, Nat.add_zero]

/-- The calls that derive facts come before all others. -/
theorem answer_eq_derived_iff (hk : k < n) : r.answer k = .ok .derived ↔ k < r.derivations n := by
  rcases r.first_answer_ne_derived n with h | ⟨m, hm, hlt, h⟩
  · rw [derivations_of_forall h]
    exact ⟨fun _ => hk, fun _ => h k hk⟩
  · rw [derivations_of_ended hlt h (Nat.le_of_lt hm)]
    refine ⟨fun hderived => ?_, hlt k⟩
    by_contra hge
    rcases Nat.eq_or_lt_of_le (Nat.le_of_not_lt hge) with rfl | hlater
    · exact h hderived
    · rw [answer_of_ended h hlater] at hderived
      cases hderived

theorem facts_after_derivations (r : Run σ) (n : Nat) :
    (r.after n).facts = (r.after (r.derivations n)).facts := by
  rcases r.first_answer_ne_derived n with h | ⟨m, hm, hlt, h⟩
  · rw [derivations_of_forall h]
  · rw [derivations_of_ended hlt h (Nat.le_of_lt hm), after_of_ended h hm]
    exact (step_of_ne_derived h).1

theorem steps_after (r : Run σ) (n : Nat) : (r.after n).steps = r.steps + r.derivations n := by
  induction n with
  | zero => rfl
  | succ n ih =>
    rw [after_succ, derivations_succ, ← Nat.add_assoc, ← ih]
    by_cases h : r.answer n = .ok .derived
    · have ⟨G, s, _, hs⟩ := exists_of_step_eq_derived h
      rw [if_pos h, hs]
    · rw [if_neg h]
      exact (step_of_ne_derived h).2.1

end Run

end ForwardChaining
