import ForwardChaining.Proofs.Pairs
import ForwardChaining.Proofs.Sequence
import ForwardChaining.Proofs.Solving

/-!
# Rebinding — no search gives a variable a second value

Matching compares the value of a variable that has one and extends the binding only where there is none, so
it is never refused. The forms of the language bind variables by matching alone, and hand on what the searches
of nested conditions report. So no search, no step and no run fails for a second value, wherever it starts:
that is left to bindings that are extended or listed by hand (`never_rebinds`).
-/

namespace ForwardChaining

/-! ## 1. Searches and forms -/

/-- Whether a search never comes to give a variable a second value. -/
def Search.NeverRebinds (s : Search) : Prop :=
  ∀ b e, s b ≠ .error (.rebinding e)

/-- Whether a form is no reason to give a variable a second value: it does so only where the searches of the
conditions among the arguments do. -/
def Form.NeverRebinds (form : Form) : Prop :=
  ∀ F c nested, (∀ s ∈ nested, Search.NeverRebinds s) → Search.NeverRebinds (form.resolve F c nested)

def Registry.NeverRebinds (r : Registry) : Prop :=
  ∀ head form, r.find? head = some form → form.NeverRebinds

theorem Search.all_neverRebinds {ss : List Search} (h : ∀ s ∈ ss, NeverRebinds s) :
    NeverRebinds (all ss) := by
  induction ss with
  | nil => exact fun b e he => by cases he
  | cons s ss ih =>
    obtain ⟨hs, hss⟩ := List.forall_mem_cons.1 h
    intro b e he
    -- the first search fails, or the others do from one of its solutions
    rcases bind_eq_error_iff.1 he with he | ⟨mids, _, he⟩
    · exact hs b e he
    · rcases bind_eq_error_iff.1 he with he | ⟨groups, _, he⟩
      · obtain ⟨m, _, hm⟩ := exists_mem_of_mapM_eq_error he
        exact ih hss m e hm
      · cases he

namespace Form

theorem reject_neverRebinds (c : Condition) (reason : ShapeError) :
    Search.NeverRebinds fun _ => reject c reason :=
  fun _ _ he => by cases he

theorem factMatch_neverRebinds : factMatch.NeverRebinds := by
  intro F c nested _
  cases c with
  | tuple t =>
    intro b e he
    obtain ⟨bs, hbs⟩ := F.exists_query_eq_ok t b
    obtain ⟨e', he', _⟩ := mapError_eq_error_iff.1 he
    cases hbs.symm.trans he'
  | form head args => exact reject_neverRebinds _ _

theorem negation_neverRebinds : negation.NeverRebinds := by
  intro F c nested hnested
  cases c with
  | tuple t => exact reject_neverRebinds _ _
  | form head args =>
    intro b e he
    simp only [negation] at he
    split at he
    · rcases bind_eq_error_iff.1 he with he | ⟨solutions, _, he⟩
      · exact Search.all_neverRebinds hnested b e he
      · cases he
    · exact reject_neverRebinds _ _ b e he

theorem guard_neverRebinds : guard.NeverRebinds := by
  intro F c nested _ b e he
  simp only [guard] at he
  split at he
  · rcases bind_eq_error_iff.1 he with he | ⟨p, _, he⟩
    · -- what goes wrong in an expression is another kind of error
      obtain ⟨err, _, herr⟩ := mapError_eq_error_iff.1 he
      cases err with
      | unbound v => cases herr
      | operation o => cases herr
    · cases he
  · exact reject_neverRebinds _ _ b e he

end Form

namespace Registry

theorem builtin_neverRebinds : builtin.NeverRebinds := by
  intro head form hform
  rw [find?_builtin] at hform
  split at hform
  · cases hform
    exact Form.guard_neverRebinds
  · split at hform
    · cases hform
      exact Form.negation_neverRebinds
    · cases hform

theorem lookup_neverRebinds {r : Registry} (h : r.NeverRebinds) (c : Condition) :
    (r.lookup c).NeverRebinds := by
  rw [lookup]
  cases hform : c.head?.bind r.find? with
  | none => exact Form.factMatch_neverRebinds
  | some form =>
    obtain ⟨head, _, hfind⟩ := Option.bind_eq_some_iff.1 hform
    exact h head form hfind

end Registry

/-! ## 2. Conditions at any depth -/

variable {r : Registry}

mutual

theorem Condition.search_neverRebinds (h : r.NeverRebinds) (F : FactBase) :
    (c : Condition) → Search.NeverRebinds (c.search r F)
  | .tuple t =>
    Registry.lookup_neverRebinds h (.tuple t) F (.tuple t) [] fun _ hs => absurd hs List.not_mem_nil
  | .form head args =>
    Registry.lookup_neverRebinds h (.form head args) F (.form head args) (Argument.searches r F args)
      (Argument.searches_neverRebinds h F args)

theorem Argument.searches_neverRebinds (h : r.NeverRebinds) (F : FactBase) :
    (args : List Argument) → ∀ s ∈ Argument.searches r F args, Search.NeverRebinds s
  | [] => fun _ hs => absurd hs List.not_mem_nil
  | .term _ :: args => Argument.searches_neverRebinds h F args
  | .expr _ :: args => Argument.searches_neverRebinds h F args
  | .condition c :: args =>
    List.forall_mem_cons.2 ⟨Condition.search_neverRebinds h F c, Argument.searches_neverRebinds h F args⟩

end

theorem solve_neverRebinds (h : r.NeverRebinds) (F : FactBase) (cs : List Condition) :
    Search.NeverRebinds (solve r F cs) :=
  Search.all_neverRebinds (List.forall_mem_map.2 fun c _ => Condition.search_neverRebinds h F c)

/-! ## 3. Engines and runs -/

theorem InferenceError.ofUnbound_ne_rebinding (u : UnboundVariable) (e : Rebinding) :
    ofUnbound u ≠ rebinding e :=
  fun h => by cases h

section Runs

variable {engine : Engine} {F : FactBase} {σ : Type} {r : Run σ} {e : Rebinding}

theorem Engine.candidates_ne_rebinding (h : engine.forms.NeverRebinds) :
    engine.candidates F ≠ .error (.rebinding e) := by
  intro he
  rcases exists_of_candidates_eq_error he with ⟨rule, _, he | ⟨sols, _, b, _, he⟩⟩
  · exact solve_neverRebinds h F rule.conditions ∅ e he
  · rw [offers] at he
    split at he
    · obtain ⟨u, _, hu⟩ := mapError_eq_error_iff.1 he
      exact InferenceError.ofUnbound_ne_rebinding u e hu
    · cases he

theorem Engine.step_ne_rebinding (h : engine.forms.NeverRebinds) (strategy : Strategy σ) (state : σ) :
    (engine.step strategy F state).1 ≠ .error (.rebinding e) := by
  intro he
  rcases exists_of_step_eq_error he with he | ⟨cs, _, _, ⟨_, hinvalid⟩ | ⟨c, _, hfire⟩⟩
  · exact candidates_ne_rebinding h he
  · cases hinvalid
  · obtain ⟨t, _, u, _, hu⟩ := Candidate.exists_of_fire_eq_error hfire
    exact InferenceError.ofUnbound_ne_rebinding u e hu.symm

theorem Run.step_ne_rebinding (h : r.engine.forms.NeverRebinds) :
    r.step.1 ≠ .error (.rebinding e) :=
  fun he => Engine.step_ne_rebinding h r.strategy r.state (engine_step_eq_error he)

theorem Run.next_ne_rebinding (h : r.engine.forms.NeverRebinds) :
    r.next.1 ≠ some (.error (.rebinding e)) := by
  intro he
  rcases r.next_cases with ⟨_, hn⟩ | ⟨_, _, ⟨_, hn⟩ | ⟨_, hn⟩ | ⟨err, herr, hn⟩⟩
  · rw [hn] at he; cases he
  · rw [hn] at he; cases he
  · rw [hn] at he; cases he
  · rw [hn] at he
    cases he
    exact step_ne_rebinding h herr

end Runs

/-- Nothing that matches, queries, solves or runs rules ever gives a variable a second value, from whatever
binding it starts: matching extends a binding only by a variable that has no value. An extension by hand is
refused exactly if the variable has another value, and a list of pairs exactly if it gives some variable two
values; then the first pair that contradicts one before it is reported. -/
theorem never_rebinds :
    (∀ (t : Term) (a : Atom) (b : Binding), ∃ o, t.matchAtom a b = .ok o ∧
      ∀ c, o = some c → c = b ∨ ∃ v, t = .var v ∧ b.get? v = none ∧ b.extend v a = .ok c) ∧
    (∀ (t : Tuple) (f : Fact) (b : Binding), ∃ o, t.matchFact f b = .ok o) ∧
    (∀ (F : FactBase) (t : Tuple) (b : Binding), ∃ bs, F.query t b = .ok bs) ∧
    (∀ F cs b e, solve .builtin F cs b ≠ .error (.rebinding e)) ∧
    (∀ rules productiveOnly F e,
      Engine.candidates ⟨rules, .builtin, productiveOnly⟩ F ≠ .error (.rebinding e)) ∧
    (∀ (σ : Type) (strategy : Strategy σ) (state : σ) (rules : List Rule) (productiveOnly : Bool)
      (F : FactBase) (moves : List Run.Move) (e : Rebinding),
      let r := moves.foldl Run.move (Engine.run ⟨rules, .builtin, productiveOnly⟩ strategy state F)
      r.step.1 ≠ .error (.rebinding e) ∧ r.next.1 ≠ some (.error (.rebinding e))) ∧
    (∀ (b : Binding) (v : Variable) (a : Atom),
      (∃ e, b.extend v a = .error e) ↔ ∃ old, b.get? v = some old ∧ old ≠ a) ∧
    ∀ pairs, ((∃ e, Binding.ofList pairs = .error e) ↔
        ∃ v a a', (v, a) ∈ pairs ∧ (v, a') ∈ pairs ∧ a ≠ a') ∧
      ∀ e, Binding.ofList pairs = .error e ↔ ∃ front rest, pairs = front ++ (e.var, e.given) :: rest ∧
        Consistent front ∧ (e.var, e.bound) ∈ front ∧ e.bound ≠ e.given := by
  have hbuiltin := Registry.builtin_neverRebinds
  refine ⟨fun t a b => ?_, Tuple.exists_matchFact_eq_ok, FactBase.exists_query_eq_ok,
    fun F cs => solve_neverRebinds hbuiltin F cs, fun rules p F e => Engine.candidates_ne_rebinding hbuiltin,
    fun σ strategy state rules p F moves e => ?_, fun b v a => ?_,
    fun pairs => ⟨Binding.exists_ofList_eq_error_iff, fun e => Binding.ofList_eq_error_iff⟩⟩
  · obtain ⟨o, ho⟩ := t.exists_matchAtom_eq_ok a b
    refine ⟨o, ho, ?_⟩
    rintro c rfl
    rcases Term.matchAtom_cases ho with ⟨_, hc⟩ | ⟨v, ht, ⟨_, hc⟩ | ⟨hv, hc⟩⟩
    · exact Or.inl hc
    · exact Or.inl hc
    · exact Or.inr ⟨v, ht, hv, hc⟩
  · intro r
    have hforms : r.engine.forms.NeverRebinds := by
      rw [Run.engine_moves]
      exact hbuiltin
    exact ⟨Run.step_ne_rebinding hforms, Run.next_ne_rebinding hforms⟩
  · simp only [Binding.extend_eq_error_iff]
    constructor
    · rintro ⟨_, old, hold, hne, _⟩
      exact ⟨old, hold, hne⟩
    · rintro ⟨old, hold, hne⟩
      exact ⟨_, old, hold, hne, rfl⟩

end ForwardChaining
