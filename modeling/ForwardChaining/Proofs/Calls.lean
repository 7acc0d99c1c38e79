import ForwardChaining.Proofs.Endings
import ForwardChaining.Proofs.Mirroring
import Mathlib.Data.List.Induction

/-!
# Calls — a run moved by `step` and `next` in any order

Every call but a `next` that comes first attempts the next transition, so a run that some calls have
moved stands where as many calls of `step` alone would have brought it (`Run.moves_cases`). What the
calls answer, which errors they report and what they ask the strategy is read off that run
(`Engine.calls_consistent`).
-/

namespace ForwardChaining

variable {σ : Type}

/-! ## 1. Transitions that fail -/

namespace Engine

/-- The ways in which a transition fails. -/
inductive Fails (e : Engine) (strategy : Strategy σ) (F : FactBase) (state : σ) :
    InferenceError → Prop where
  /-- The candidates cannot be enumerated. -/
  | solving {err : InferenceError} (h : e.candidates F = .error err) : Fails e strategy F state err
  /-- The strategy chooses an index that is not below the number of candidates. -/
  | choosing {cs : List Candidate} (hcs : e.candidates F = .ok cs) (hne : cs ≠ [])
      (hlen : cs.length ≤ (strategy cs state).1) :
      Fails e strategy F state (.invalidChoice (strategy cs state).1 cs.length)
  /-- A conclusion of the chosen candidate has an unbound variable. -/
  | firing {cs : List Candidate} {c : Candidate} {err : InferenceError} (hcs : e.candidates F = .ok cs)
      (hc : cs[(strategy cs state).1]? = some c) (hfire : c.fire F = .error err) :
      Fails e strategy F state err

theorem step_eq_error_iff {e : Engine} {strategy : Strategy σ} {F : FactBase} {state : σ}
    {err : InferenceError} :
    (e.step strategy F state).1 = .error err ↔ e.Fails strategy F state err := by
  constructor
  · intro h
    cases hcs : e.candidates F with
    | error err' =>
      simp only [step, select, hcs] at h
      cases h
      exact Fails.solving hcs
    | ok cs =>
      cases cs with
      | nil =>
        simp only [step, select, hcs] at h
        cases h
      | cons c cs =>
        cases hi : (c :: cs)[(strategy (c :: cs) state).1]? with
        | none =>
          simp only [step, select, hcs, hi] at h
          cases h
          exact Fails.choosing hcs (List.cons_ne_nil c cs) (List.getElem?_eq_none_iff.1 hi)
        | some chosen =>
          rw [step_of_getElem? hcs hi] at h
          exact Fails.firing hcs hi (map_eq_error_iff.1 h)
  · intro h
    cases h with
    | solving hcs =>
      simp only [step, select, hcs]
      rfl
    | @choosing cs hcs hne hlen =>
      obtain ⟨c, cs, rfl⟩ := List.exists_cons_of_ne_nil hne
      simp only [step, select, hcs, List.getElem?_eq_none_iff.2 hlen]
      rfl
    | firing hcs hc hfire =>
      rw [step_of_getElem? hcs hc, hfire]
      rfl

end Engine

/-! ## 2. Transitions that ask the strategy -/

/-- A strategy that keeps a record of the lists of candidates that it has been asked about. -/
def Strategy.recorded (strategy : Strategy σ) : Strategy (σ × List (List Candidate)) :=
  fun cs (state, record) =>
    let (index, next) := strategy cs state
    (index, next, record ++ [cs])

namespace Engine

/-- What a transition asks the strategy: about all candidates, if there are any. -/
def asks (e : Engine) (F : FactBase) : List (List Candidate) :=
  match e.candidates F with
  | .error _ => []
  | .ok [] => []
  | .ok (c :: cs) => [c :: cs]

theorem step_recorded (e : Engine) (strategy : Strategy σ) (F : FactBase)
    (p : σ × List (List Candidate)) :
    e.step strategy.recorded F p
      = ((e.step strategy F p.1).1, (e.step strategy F p.1).2, p.2 ++ e.asks F) := by
  obtain ⟨state, record⟩ := p
  cases hcs : e.candidates F with
  | error err => simp only [step, select, asks, hcs, List.append_nil]
  | ok cs =>
    cases cs with
    | nil => simp only [step, select, asks, hcs, List.append_nil]
    | cons c cs =>
      simp only [step, select, asks, hcs, Strategy.recorded]
      cases (c :: cs)[(strategy (c :: cs) state).1]? with
      | none => rfl
      | some chosen => rfl

end Engine

/-! ## 3. Calls and transitions -/

namespace Run

variable {r : Run σ} {n : Nat}

/-- The run with its start shown, before its first transition. -/
def started (r : Run σ) : Run σ :=
  { r with phase := .running }

/-- What `next` shows of a transition that has led to some facts. -/
def shown (answer : Except InferenceError Progress) (F : FactBase) :
    Option (Except InferenceError FactBase) :=
  match answer with
  | .ok .derived => some (.ok F)
  | .ok .fixpoint => none
  | .ok .done => none
  | .error err => some (.error err)

theorem next_of_initial (h : r.phase = .initial) : r.next = (some (.ok r.facts), r.started) := by
  rw [next, if_pos h, started]

theorem next_of_ne_initial (h : r.phase ≠ .initial) :
    r.next = (shown r.step.1 r.step.2.facts, r.step.2) := by
  rw [next, if_neg h]
  obtain ⟨result, s⟩ := r.step
  cases result with
  | error err => rfl
  | ok o =>
    cases o with
    | derived => rfl
    | fixpoint => rfl
    | done => rfl

/-- Whether the start has been shown makes no difference to a step. -/
theorem step_started (h : r.phase = .initial) : r.started.step = r.step := by
  have hr : ¬ r.phase = .finished := by
    intro hp
    cases h.symm.trans hp
  have hs : ¬ r.started.phase = .finished := by
    intro hp
    cases hp
  rw [step, step, if_neg hr, if_neg hs]
  rfl

theorem after_started (h : r.phase = .initial) (n : Nat) :
    r.started.after (n + 1) = r.after (n + 1) := by
  rw [← after_step, ← after_step, step_started h]

theorem phase_step_ne_initial (r : Run σ) : r.step.2.phase ≠ .initial := by
  intro hp
  rcases r.step_cases with ⟨hf, hs⟩ | ⟨_, ⟨G, s, _, hs⟩ | ⟨s, _, hs⟩ | ⟨err, s, _, hs⟩⟩
  all_goals rw [hs] at hp
  · cases hf.symm.trans hp
  all_goals cases hp

theorem phase_move_ne_initial (r : Run σ) (m : Move) : (r.move m).phase ≠ .initial := by
  cases m with
  | step => exact phase_step_ne_initial r
  | next =>
    show r.next.2.phase ≠ .initial
    rcases r.next_cases with ⟨_, hn⟩ | ⟨_, hn, _⟩
    · rw [hn]
      exact fun hp => (nomatch hp)
    · rw [hn]
      exact phase_step_ne_initial r

theorem phase_moves_ne_initial {ms : List Move} (hms : ms ≠ []) :
    (ms.foldl move r).phase ≠ .initial := by
  obtain rfl | ⟨ms, m, rfl⟩ := List.eq_nil_or_concat ms
  · exact absurd rfl hms
  · rw [List.concat_eq_append, List.foldl_append]
    exact phase_move_ne_initial _ m

theorem move_of_ne_initial (h : r.phase ≠ .initial) (m : Move) : r.move m = r.step.2 := by
  cases m with
  | step => rfl
  | next => exact congrArg Prod.snd (next_of_ne_initial h)

theorem moves_of_ne_initial (h : r.phase ≠ .initial) (ms : List Move) :
    ms.foldl move r = r.after ms.length := by
  induction ms generalizing r with
  | nil => rfl
  | cons m ms ih =>
    rw [List.foldl_cons, move_of_ne_initial h, ih (phase_step_ne_initial r), List.length_cons,
      after_step]

/-- How many of the calls attempt a transition: all but a `next` that comes first. -/
def Move.attempts : List Move → Nat
  | .next :: ms => ms.length
  | ms => ms.length

open Move (attempts)

/-- Calls bring a run from its start to where as many steps do as they attempt transitions. -/
theorem moves_cases (h : r.phase = .initial) (ms : List Move) :
    ms.foldl move r = r.after (attempts ms) ∨ ms = [.next] ∧ ms.foldl move r = r.started := by
  have hstarted : r.started.phase ≠ .initial := fun hp => (nomatch hp)
  cases ms with
  | nil => exact Or.inl rfl
  | cons m ms =>
    cases m with
    | step =>
      left
      show ms.foldl move r.step.2 = r.after (ms.length + 1)
      rw [moves_of_ne_initial (phase_step_ne_initial r), after_step]
    | next =>
      have hmove : r.move .next = r.started := congrArg Prod.snd (next_of_initial h)
      rw [List.foldl_cons, hmove, moves_of_ne_initial hstarted]
      cases ms with
      | nil => exact Or.inr ⟨rfl, rfl⟩
      | cons m ms => exact Or.inl (after_started h ms.length)

theorem step_moves (h : r.phase = .initial) (ms : List Move) :
    (ms.foldl move r).step = (r.answer (attempts ms), r.after (attempts ms + 1)) := by
  rcases moves_cases h ms with hs | ⟨rfl, hs⟩
  · rw [hs]
    rfl
  · rw [hs, step_started h]
    rfl

theorem facts_moves (h : r.phase = .initial) (ms : List Move) :
    (ms.foldl move r).facts = (r.after (attempts ms)).facts ∧
      (ms.foldl move r).steps = (r.after (attempts ms)).steps := by
  rcases moves_cases h ms with hs | ⟨rfl, hs⟩
  · rw [hs]
    exact ⟨rfl, rfl⟩
  · rw [hs]
    exact ⟨rfl, rfl⟩

theorem next_moves (h : r.phase = .initial) {ms : List Move} (hms : ms ≠ []) :
    (ms.foldl move r).next = (shown (r.answer (attempts ms)) (r.after (attempts ms + 1)).facts,
      r.after (attempts ms + 1)) := by
  rw [next_of_ne_initial (phase_moves_ne_initial hms), step_moves h]

/-! ## 4. Errors among the replies -/

/-- What a call replies. -/
inductive Reply where
  | step (answer : Except InferenceError Progress)
  | next (item : Option (Except InferenceError FactBase))

/-- The error that a reply reports, if it does. -/
def Reply.error : Reply → Option InferenceError
  | .step (.error err) => some err
  | .next (some (.error err)) => some err
  | _ => none

/-- The error of the transition after `n` others, if it fails. -/
def failure (r : Run σ) (n : Nat) : Option InferenceError :=
  (Reply.step (r.answer n)).error

def reply (r : Run σ) : Move → Reply
  | .step => .step r.step.1
  | .next => .next r.next.1

/-- What the calls reply, one after the other. -/
def replies (r : Run σ) : List Move → List Reply
  | [] => []
  | m :: ms => r.reply m :: (r.move m).replies ms

theorem failure_eq_none (h : ∀ err, r.answer n ≠ .error err) : r.failure n = none := by
  rw [failure]
  cases ha : r.answer n with
  | error err => exact absurd ha (h err)
  | ok o => rfl

theorem failure_eq_some {err : InferenceError} (h : r.answer n = .error err) :
    r.failure n = some err := by
  rw [failure, h]
  rfl

theorem replies_concat (r : Run σ) (ms : List Move) (m : Move) :
    r.replies (ms ++ [m]) = r.replies ms ++ [(ms.foldl move r).reply m] := by
  induction ms generalizing r with
  | nil => rfl
  | cons m' ms ih => rw [List.cons_append, replies, ih, replies, List.foldl_cons, List.cons_append]

theorem attempts_concat {ms : List Move} {m : Move} (h : ¬ (ms = [] ∧ m = .next)) :
    attempts (ms ++ [m]) = attempts ms + 1 := by
  cases ms with
  | nil =>
    cases m with
    | step => rfl
    | next => exact absurd ⟨rfl, rfl⟩ h
  | cons m' ms =>
    cases m' with
    | step => exact congrArg (· + 1) List.length_append
    | next => exact List.length_append

theorem error_reply_moves (h : r.phase = .initial) {ms : List Move} {m : Move}
    (hm : ¬ (ms = [] ∧ m = .next)) :
    ((ms.foldl move r).reply m).error = r.failure (attempts ms) := by
  cases m with
  | step =>
    show (Reply.step (ms.foldl move r).step.1).error = _
    rw [step_moves h]
    rfl
  | next =>
    show (Reply.next (ms.foldl move r).next.1).error = _
    rw [next_moves h fun hms => hm ⟨hms, rfl⟩, failure]
    cases r.answer (attempts ms) with
    | error err => rfl
    | ok o =>
      cases o with
      | derived => rfl
      | fixpoint => rfl
      | done => rfl

/-- The calls report the errors of the transitions that they attempt, each once. -/
theorem errors_replies (h : r.phase = .initial) (ms : List Move) :
    (r.replies ms).filterMap Reply.error = (List.range (attempts ms)).filterMap r.failure := by
  induction ms using List.reverseRecOn with
  | nil => rfl
  | append_singleton ms m ih =>
    rw [replies_concat, List.filterMap_append, ih]
    by_cases hm : ms = [] ∧ m = .next
    · obtain ⟨rfl, rfl⟩ := hm
      show [Reply.next r.next.1].filterMap Reply.error = []
      rw [next_of_initial h]
      rfl
    · rw [attempts_concat hm, List.range_succ, List.filterMap_append]
      congr 1
      rw [List.filterMap_cons, error_reply_moves h hm, List.filterMap_cons]
      rfl

/-- A transition that fails is the only one that does. -/
theorem failures_eq {k n : Nat} {err : InferenceError} (h : r.answer k = .error err) (hk : k < n) :
    (List.range n).filterMap r.failure = [err] := by
  obtain ⟨j, rfl⟩ := Nat.exists_eq_add_of_le (Nat.succ_le_of_lt hk)
  have hended : r.answer k ≠ .ok .derived := by
    rw [h]
    exact fun hp => (nomatch hp)
  have hbefore : (List.range k).filterMap r.failure = [] := by
    rw [List.filterMap_eq_nil_iff]
    intro i hi
    apply failure_eq_none
    intro err' hi'
    have hdone : r.answer k ≠ .ok .done := by
      rw [h]
      exact fun hp => (nomatch hp)
    rw [answer_eq_derived_of_lt hdone (List.mem_range.1 hi)] at hi'
    cases hi'
  have hafter : ((List.range j).map (k + 1 + ·)).filterMap r.failure = [] := by
    rw [List.filterMap_eq_nil_iff]
    intro i hi
    obtain ⟨i, _, rfl⟩ := List.mem_map.1 hi
    apply failure_eq_none
    intro err' hi'
    rw [answer_of_ended hended (by omega)] at hi'
    cases hi'
  rw [Nat.succ_eq_add_one, List.range_add, List.filterMap_append, hafter, List.append_nil,
    List.range_succ, List.filterMap_append, hbefore, List.nil_append,
    List.filterMap_cons_some (failure_eq_some h), List.filterMap_nil]

/-! ## 5. Records of what is asked -/

/-- What the transition after `n` others asks the strategy. After the end it is not asked. -/
def asks (r : Run σ) (n : Nat) : List (List Candidate) :=
  if (r.after n).phase = .finished then [] else r.engine.asks (r.after n).facts

theorem asks_cases (r : Run σ) (n : Nat) :
    r.asks n = [] ∨ ∃ cs, cs ≠ [] ∧ r.engine.candidates (r.after n).facts = .ok cs ∧
      r.asks n = [cs] := by
  by_cases hp : (r.after n).phase = .finished
  · left
    rw [asks, if_pos hp]
  · rw [asks, if_neg hp, Engine.asks]
    cases r.engine.candidates (r.after n).facts with
    | error err => exact Or.inl rfl
    | ok cs =>
      cases cs with
      | nil => exact Or.inl rfl
      | cons c cs => exact Or.inr ⟨c :: cs, List.cons_ne_nil c cs, rfl, rfl⟩

/-- The run with a strategy that keeps a record. -/
def recorded (r : Run σ) : Run (σ × List (List Candidate)) where
  engine := r.engine
  strategy := r.strategy.recorded
  state := (r.state, [])
  facts := r.facts
  steps := r.steps
  phase := r.phase

theorem mirrors_recorded (r : Run σ) : r.recorded.Mirrors Prod.fst r := by
  have hstep : ∀ F p, r.recorded.engine.step r.recorded.strategy F p
      = ((r.engine.step r.strategy F p.1).1, (r.engine.step r.strategy F p.1).2,
        p.2 ++ r.engine.asks F) :=
    r.engine.step_recorded r.strategy
  constructor
  case engine_step =>
    intro F p
    rw [hstep]
  all_goals rfl

theorem record_step {strategy : Strategy σ} {q : Run (σ × List (List Candidate))}
    (h : q.strategy = strategy.recorded) : q.step.2.state.2 = q.state.2 ++ q.asks 0 := by
  rw [asks, after]
  rcases q.step_cases with ⟨hp, hs⟩ | ⟨hp, ⟨G, s, he, hs⟩ | ⟨s, he, hs⟩ | ⟨err, s, he, hs⟩⟩
  · rw [if_pos hp, hs, List.append_nil]
  all_goals
    rw [h, Engine.step_recorded] at he
    rw [if_neg hp, hs, ← (Prod.mk.inj he).2]

theorem record_after (r : Run σ) (n : Nat) :
    (r.recorded.after n).state.2 = (List.range n).flatMap r.asks := by
  induction n with
  | zero => rfl
  | succ n ih =>
    have hmirrors := r.mirrors_recorded.after n
    have hasks : (r.recorded.after n).asks 0 = r.asks n := by
      rw [asks, asks, after, hmirrors.phase_eq, hmirrors.facts_eq, engine_after]
      rfl
    have hstrategy : (r.recorded.after n).strategy = r.strategy.recorded :=
      strategy_after r.recorded n
    rw [after_succ, record_step hstrategy, ih, hasks, List.range_succ, List.flatMap_append,
      List.flatMap_singleton]

/-- The record that calls leave is of the transitions that they attempt. -/
theorem record_moves (h : r.phase = .initial) (ms : List Move) :
    (ms.foldl move r.recorded).state.2 = (List.range (attempts ms)).flatMap r.asks := by
  rcases moves_cases (r := r.recorded) h ms with hs | ⟨rfl, hs⟩
  · rw [hs, record_after]
  · rw [hs]
    rfl

/-! ## 6. Consistency -/

theorem strategy_moves (h : r.phase = .initial) (ms : List Move) :
    (ms.foldl move r).strategy = r.strategy := by
  rcases moves_cases h ms with hs | ⟨_, hs⟩
  · rw [hs, strategy_after]
  · rw [hs]
    rfl

theorem step_eq_error_iff {err : InferenceError} :
    r.step.1 = .error err ↔
      r.phase ≠ .finished ∧ r.engine.Fails r.strategy r.facts r.state err := by
  rw [← Engine.step_eq_error_iff]
  refine ⟨fun h => ⟨fun hp => ?_, engine_step_eq_error h⟩, fun ⟨hp, h⟩ => ?_⟩
  · rw [step_of_finished hp] at h
    cases h
  · rcases r.step_cases with ⟨hf, _⟩ | ⟨_, ⟨G, s, he, _⟩ | ⟨s, he, _⟩ | ⟨err', s, he, hs⟩⟩
    · exact absurd hf hp
    · rw [he] at h
      cases h
    · rw [he] at h
      cases h
    · rw [he] at h
      cases h
      rw [hs]

theorem calls_of_finished (h : r.phase = .finished) :
    r.step = (.ok .done, r) ∧ r.next = (none, r) ∧ ∀ ms : List Move, ms.foldl move r = r := by
  have hne : r.phase ≠ .initial := by
    rw [h]
    exact fun hp => (nomatch hp)
  refine ⟨step_of_finished h, ?_, fun ms => ?_⟩
  · rw [next_of_ne_initial hne, step_of_finished h]
    rfl
  · rw [moves_of_ne_initial hne, after_of_finished h]

theorem phase_moves_of_ended (h : r.phase = .initial) {ms : List Move} {k : Nat}
    (hk : k < attempts ms) (hend : r.answer k ≠ .ok .derived) :
    (ms.foldl move r).phase = .finished := by
  rcases moves_cases h ms with hs | ⟨rfl, _⟩
  · rw [hs]
    exact phase_after_of_ended hend hk
  · exact absurd hk (Nat.not_lt_zero k)

theorem ne_derived_of_ended (h : r.answer n = .ok .fixpoint ∨ ∃ err, r.answer n = .error err) :
    r.answer n ≠ .ok .derived := by
  rcases h with h | ⟨err, h⟩
  all_goals
    rw [h]
    exact fun hd => (nomatch hd)

/-- The calls `ms` on the run `r`, of which `n` attempt a transition, have made it `s`: how this goes
with the run that only `step` moves. -/
structure Consistent (r : Run σ) (ms : List Move) (s : Run σ) (n : Nat) : Prop where
  /-- A step attempts the next transition. -/
  step_eq : s.step = (r.answer n, r.after (n + 1))
  /-- As the first call, `next` yields the initial facts and attempts nothing. -/
  next_first : ms = [] → s.next = (some (.ok r.facts), r.started)
  /-- As a later call, `next` attempts the next transition and shows it. What it yields may equal the
  initial facts, but only after a rule has fired that adds nothing. -/
  next_later : ms ≠ [] → s.next = (shown (r.answer n) (r.after (n + 1)).facts, r.after (n + 1))
  /-- The transitions that derive facts are the first ones. -/
  derived_iff : ∀ k < n, r.answer k = .ok .derived ↔ k < r.derivations n
  /-- The facts are those after the derivations so far, which the step count counts. -/
  facts_eq : s.facts = (r.after (r.derivations n)).facts
  steps_eq : s.steps = r.derivations n
  /-- The next transition fails exactly for the reasons there are. -/
  error_iff : ∀ err, r.answer n = .error err ↔
    s.phase ≠ .finished ∧ r.engine.Fails r.strategy s.facts s.state err
  /-- A transition that fails leaves the facts and the step count unchanged. -/
  error_kept : ∀ err, r.answer n = .error err →
    (r.after (n + 1)).facts = s.facts ∧ (r.after (n + 1)).steps = s.steps
  /-- A transition that has failed is reported by one reply, and there is no other error. -/
  error_once : ∀ k < n, ∀ err, r.answer k = .error err → (r.replies ms).filterMap Reply.error = [err]
  no_error : (∀ k < n, ∀ err, r.answer k ≠ .error err) → (r.replies ms).filterMap Reply.error = []
  /-- After the fixpoint or an error no call does anything. -/
  ended : ∀ k < n, (r.answer k = .ok .fixpoint ∨ ∃ err, r.answer k = .error err) →
    s.step = (.ok .done, s) ∧ s.next = (none, s) ∧ ∀ ms' : List Move, ms'.foldl move s = s
  /-- Keeping a record of what the strategy is asked makes no difference to the run. -/
  record_mirrors : (ms.foldl move r.recorded).Mirrors Prod.fst s
  /-- The record is of what the attempted transitions have asked. -/
  record_eq : (ms.foldl move r.recorded).state.2 = (List.range n).flatMap r.asks
  /-- A transition asks the strategy once at most, and never about no candidates. -/
  asks_cases : ∀ k, r.asks k = [] ∨
    ∃ cs, cs ≠ [] ∧ r.engine.candidates (r.after k).facts = .ok cs ∧ r.asks k = [cs]
  asks_ended : ∀ k j, k < j → (r.answer k = .ok .fixpoint ∨ ∃ err, r.answer k = .error err) →
    r.asks j = []

end Run

/-- The calls of `step` and `next` on a run from its start may be mixed in any way. -/
theorem Engine.calls_consistent (e : Engine) (strategy : Strategy σ) (state : σ) (F₀ : FactBase)
    (ms : List Run.Move) :
    let r := e.run strategy state F₀
    r.Consistent ms (ms.foldl Run.move r) (Run.Move.attempts ms) := by
  intro r
  have hr : r.phase = .initial := rfl
  let s := ms.foldl Run.move r
  let n := Run.Move.attempts ms
  have hstep : s.step = (r.answer n, r.after (n + 1)) := Run.step_moves hr ms
  -- the facts and the step count are those of the run that only `step` moves
  have ⟨hfacts, hsteps⟩ : s.facts = (r.after n).facts ∧ s.steps = (r.after n).steps :=
    Run.facts_moves hr ms
  constructor
  case step_eq => exact hstep
  case next_first =>
    rintro rfl
    exact Run.next_of_initial hr
  case next_later => exact fun hms => Run.next_moves hr hms
  case derived_iff => exact fun k hk => Run.answer_eq_derived_iff hk
  case facts_eq => exact hfacts.trans (r.facts_after_derivations n)
  case steps_eq =>
    rw [hsteps, r.steps_after n]
    exact Nat.zero_add _
  case error_iff =>
    intro err
    have hanswer : s.step.1 = r.answer n := congrArg Prod.fst hstep
    rw [← hanswer, Run.step_eq_error_iff, Run.engine_moves, Run.strategy_moves hr]
  case error_kept =>
    intro err herr
    have hkept := Run.step_of_ne_derived (Run.ne_derived_of_ended (Or.inr ⟨err, herr⟩))
    exact ⟨hkept.1.trans hfacts.symm, hkept.2.1.trans hsteps.symm⟩
  case error_once =>
    intro k hk err herr
    rw [Run.errors_replies hr, Run.failures_eq herr hk]
  case no_error =>
    intro hno
    rw [Run.errors_replies hr, List.filterMap_eq_nil_iff]
    exact fun k hk => Run.failure_eq_none (hno k (List.mem_range.1 hk))
  case ended =>
    intro k hk hend
    exact Run.calls_of_finished (Run.phase_moves_of_ended hr hk (Run.ne_derived_of_ended hend))
  case record_mirrors => exact r.mirrors_recorded.moves ms
  case record_eq => exact Run.record_moves hr ms
  case asks_cases => exact r.asks_cases
  case asks_ended =>
    intro k j hkj hend
    rw [Run.asks, if_pos (Run.phase_after_of_ended (Run.ne_derived_of_ended hend) hkj)]

/-- Numbers are seen: `(number ?x)` gives `(seen ?x)`. -/
def seenRules (number seen : Atom) : List Rule :=
  [{ conditions := [.tuple [.const number, .var ⟨0⟩]]
     conclusions := [[.const seen, .var ⟨0⟩]] }]

/-- Two numbers of which one is seen before the strategy makes a choice that is not there. The third
call reports it, and the fourth finds the run ended. -/
theorem calls_consistent_seen :
    let number : Atom := .symbol ⟨2⟩
    let e : Engine := { rules := seenRules number (.symbol ⟨3⟩), productiveOnly := true }
    let F₀ : FactBase := .ofList [[number, .integer 1], [number, .integer 2]]
    let r := e.run Policy.choose (.script [0, 5]) F₀
    let ms : List Run.Move := [.next, .step, .next, .step]
    let s := ms.foldl Run.move r
    r.answer 1 = .error (.invalidChoice 5 1) ∧
      (r.replies ms).filterMap Run.Reply.error = [.invalidChoice 5 1] ∧
      s.next = (none, s) ∧ s.steps = r.derivations 3 ∧ r.derivations 3 = 1 := by
  intro number e F₀ r ms s
  have hconsistent := e.calls_consistent Policy.choose (.script [0, 5]) F₀ ms
  have herror : r.answer 1 = .error (.invalidChoice 5 1) := by decide
  have hattempted : 1 < Run.Move.attempts ms := by decide
  exact ⟨herror, hconsistent.error_once 1 hattempted _ herror,
    (hconsistent.ended 1 hattempted (Or.inr ⟨_, herror⟩)).2.1, hconsistent.steps_eq, by decide⟩

end ForwardChaining
