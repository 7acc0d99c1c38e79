import ForwardChaining.Proofs.Sequence

/-!
# Mirroring — runs that go side by side

A run mirrors another if it stands at the same facts and its engine does the same from all facts, while
its own state may be read off a larger one. Such runs answer alike (`Run.Mirrors.step`,
`Run.Mirrors.next`), and moved by the same calls they stay together (`Run.Mirrors.moves`).
-/

namespace ForwardChaining

namespace Run

variable {σ τ : Type}

/-- `q` stands where `r` does, and a step of its engine is what `f` shows of the step for `r`. -/
structure Mirrors (f : σ → τ) (r : Run σ) (q : Run τ) : Prop where
  engine_step : ∀ F state, q.engine.step q.strategy F (f state)
    = ((r.engine.step r.strategy F state).1, f (r.engine.step r.strategy F state).2)
  facts_eq : q.facts = r.facts
  steps_eq : q.steps = r.steps
  phase_eq : q.phase = r.phase
  state_eq : q.state = f r.state

namespace Mirrors

variable {f : σ → τ} {r : Run σ} {q : Run τ}

theorem step (h : r.Mirrors f q) : q.step.1 = r.step.1 ∧ r.step.2.Mirrors f q.step.2 := by
  by_cases hr : r.phase = .finished
  · have hq : q.phase = .finished := h.phase_eq.trans hr
    rw [step_of_finished hr, step_of_finished hq]
    exact ⟨rfl, h⟩
  · have hq : ¬ q.phase = .finished := by rw [h.phase_eq]; exact hr
    rw [Run.step, Run.step, if_neg hr, if_neg hq, h.facts_eq, h.state_eq, h.engine_step]
    obtain ⟨result, state⟩ := r.engine.step r.strategy r.facts r.state
    -- both runs take over what the engine has done
    cases result with
    | error err => exact ⟨rfl, ⟨h.engine_step, rfl, h.steps_eq, rfl, rfl⟩⟩
    | ok o =>
      cases o with
      | none => exact ⟨rfl, ⟨h.engine_step, rfl, h.steps_eq, rfl, rfl⟩⟩
      | some G => exact ⟨rfl, ⟨h.engine_step, rfl, congrArg (· + 1) h.steps_eq, rfl, rfl⟩⟩

theorem next (h : r.Mirrors f q) : q.next.1 = r.next.1 ∧ r.next.2.Mirrors f q.next.2 := by
  by_cases hr : r.phase = .initial
  · have hq : q.phase = .initial := h.phase_eq.trans hr
    rw [Run.next, Run.next, if_pos hr, if_pos hq, h.facts_eq]
    exact ⟨rfl, ⟨h.engine_step, rfl, h.steps_eq, rfl, h.state_eq⟩⟩
  · have hq : ¬ q.phase = .initial := by rw [h.phase_eq]; exact hr
    obtain ⟨hanswer, hstep⟩ := h.step
    rw [Run.next, Run.next, if_neg hr, if_neg hq]
    -- the item is read off the answer and the facts after it
    generalize q.step = q' at hanswer hstep
    generalize r.step = r' at hanswer hstep
    obtain ⟨answer, q'⟩ := q'
    obtain ⟨answer', r'⟩ := r'
    cases hanswer
    cases answer with
    | error err => exact ⟨rfl, hstep⟩
    | ok o =>
      cases o with
      | derived => exact ⟨congrArg (some ∘ Except.ok) hstep.facts_eq, hstep⟩
      | fixpoint => exact ⟨rfl, hstep⟩
      | done => exact ⟨rfl, hstep⟩

theorem move (h : r.Mirrors f q) (m : Move) : (r.move m).Mirrors f (q.move m) := by
  cases m with
  | step => exact h.step.2
  | next => exact h.next.2

theorem after (h : r.Mirrors f q) (n : Nat) : (r.after n).Mirrors f (q.after n) := by
  induction n with
  | zero => exact h
  | succ n ih => exact ih.step.2

/-- Runs that go side by side do so under any calls. -/
theorem moves (h : r.Mirrors f q) (ms : List Move) :
    (ms.foldl Run.move r).Mirrors f (ms.foldl Run.move q) := by
  induction ms generalizing r q with
  | nil => exact h
  | cons m ms ih => exact ih (h.move m)

end Mirrors

end Run

end ForwardChaining
