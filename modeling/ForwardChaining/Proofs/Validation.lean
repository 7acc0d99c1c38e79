import ForwardChaining.Domain.Simulation
import ForwardChaining.Proofs.Sequence
import ForwardChaining.Proofs.Solving

/-!
# Validation — a valid domain never stops at an unbound variable

Scoping is checked on the text of a rule, solving works on bindings. The two are joined by what
solving comes to (`Visits`): at every condition, at any depth of negations, the variables that the
check takes to be bound have values. So a guard that is tested has values for all its variables, and
so has every conclusion under a solution (`Domain.validate_sound`).
-/

namespace ForwardChaining

/-! ## 1. Conditions and rules without issues -/

section Issues

variable {later bound : List Variable}

theorem VariableSet.mem_of_filter_eq_nil {s : VariableSet} {ws : List Variable}
    (h : s.toList.filter (· ∉ ws) = []) {v : Variable} (hv : v ∈ s) : v ∈ ws := by
  have hne := List.filter_eq_nil_iff.1 h v (mem_toList.2 hv)
  exact not_not.1 fun hw => hne (decide_eq_true hw)

theorem Condition.mem_of_issues_guard {e : Expr Term} (h : (guard e).issues later bound = [])
    {v : Variable} (hv : v ∈ e.vars) : v ∈ bound := by
  rw [guard, issues, if_pos rfl, List.map_eq_nil_iff] at h
  refine VariableSet.mem_of_filter_eq_nil h (Argument.mem_guarded.2 ?_)
  show v ∈ e.vars ++ []
  rw [List.append_nil]
  exact hv

theorem Condition.issuesOfAll_of_issues_negation {body : List Condition}
    (h : (negation body).issues later bound = []) : issuesOfAll later bound body = [] := by
  rw [negation, issues, if_neg (by decide), if_pos rfl, List.append_eq_nil_iff,
    Argument.bodyIssues_eq, filterMap_condition?_map] at h
  exact h.2

theorem Rule.mem_binders_of_issues {r : Rule} (h : r.issues = []) {t : Tuple}
    (ht : t ∈ r.conclusions) {v : Variable} (hv : v ∈ t.vars) : v ∈ r.binders := by
  refine mem_binders_of_no_conclusion_issue (fun w => ?_) ht hv
  rw [h]
  exact List.not_mem_nil

theorem Domain.validate_eq_ok_iff {d : Domain} :
    d.validate = .ok () ↔ ∀ r ∈ d.rules, r.issues = [] := by
  have hnone : d.validate = .ok () ↔ ValidationError.first? d.rules = none := by
    rw [validate]
    cases ValidationError.first? d.rules with
    | none => exact ⟨fun _ => rfl, fun _ => rfl⟩
    | some err => exact ⟨fun h => (nomatch h), fun h => (nomatch h)⟩
  rw [hnone, ValidationError.first?, List.findSome?_eq_none_iff]
  refine ⟨fun h r hr => ?_, fun h ⟨r, i⟩ hri => ?_⟩
  · have ⟨i, hi⟩ := List.getElem?_of_mem hr
    have hri := h (r, i) (List.mem_zipIdx_iff_getElem?.2 hi)
    exact List.head?_eq_none_iff.1 (Option.map_eq_none_iff.1 hri)
  · have hr := h r (List.mem_of_getElem? (List.mem_zipIdx_iff_getElem?.1 hri))
    show r.issues.head?.map _ = none
    rw [hr]
    rfl

end Issues

/-! ## 2. What solving comes to -/

section Visits

variable {F : FactBase} {b x : Binding} {c g : Condition} {cs body : List Condition}
  {later bound : List Variable}

/-- `Visits F cs b c x`: solving the conditions `cs` from `b` can come to the condition `c`, in `cs`
or inside a negation at any depth, under the binding `x`. -/
inductive Visits (F : FactBase) : List Condition → Binding → Condition → Binding → Prop where
  /-- The first condition is resolved. -/
  | here (c : Condition) (cs : List Condition) (b : Binding) : Visits F (c :: cs) b c b
  /-- Resolving a negation solves its body. -/
  | inside {body : List Condition} {b x : Binding} {c : Condition} (cs : List Condition)
      (h : Visits F body b c x) : Visits F (.negation body :: cs) b c x
  /-- The other conditions are solved from the solutions of the first. -/
  | later {c g : Condition} {cs : List Condition} {b m x : Binding} {mids : List Binding}
      (hmids : c.search .builtin F b = .ok mids) (hm : m ∈ mids) (h : Visits F cs m g x) :
      Visits F (c :: cs) b g x

theorem exists_visits_of_forall {v : Variable}
    (h : ∀ c ∈ cs, ∀ b cs', c.search .builtin F b = .error (.unbound v) →
      ∃ e x, Visits F (c :: cs') b (.guard e) x ∧ e.holds x = .error (.unbound v))
    (hb : solve .builtin F cs b = .error (.unbound v)) :
    ∃ e x, Visits F cs b (.guard e) x ∧ e.holds x = .error (.unbound v) := by
  induction cs generalizing b with
  | nil => cases hb
  | cons c cs ih =>
    have ⟨hc, hcs⟩ := List.forall_mem_cons.1 h
    -- the first condition fails, or the others do from one of its solutions
    rcases solve_cons_eq_error hb with hb | ⟨mids, hmids, m, hm, hb⟩
    · exact hc b cs hb
    · have ⟨e, x, hx, he⟩ := ih hcs hb
      exact ⟨e, x, Visits.later hmids hm hx, he⟩

theorem exists_visits_of_search_eq_unbound (v : Variable) (c : Condition) :
    ∀ b cs, c.search .builtin F b = .error (.unbound v) →
      ∃ e x, Visits F (c :: cs) b (.guard e) x ∧ e.holds x = .error (.unbound v) := by
  induction c using Condition.induction with
  | tuple t ht =>
    intro b cs h
    -- a query never fails
    have ⟨bs, hbs⟩ := F.exists_query_eq_ok t b
    cases ((search_tuple_eq_ok_iff ht).2 hbs).symm.trans h
  | negation body ih =>
    intro b cs h
    rw [Condition.search_negation] at h
    rcases bind_eq_error_iff.1 h with h | ⟨inner, _, h⟩
    · have ⟨e, x, hx, he⟩ := exists_visits_of_forall ih h
      exact ⟨e, x, Visits.inside cs hx, he⟩
    · cases h
  | guard e =>
    intro b cs h
    rw [Condition.search_guard] at h
    rcases bind_eq_error_iff.1 h with h | ⟨p, _, h⟩
    · have ⟨err, herr, hv⟩ := mapError_eq_error_iff.1 h
      refine ⟨e, b, Visits.here _ cs b, ?_⟩
      cases err with
      | unbound w => cases hv; exact herr
      | operation o => cases hv
    · cases h
  | rejected c hc =>
    intro b cs h
    have ⟨reason, hr⟩ := hc
    rw [hr] at h
    cases h

theorem exists_visits_of_solve_eq_unbound {v : Variable}
    (h : solve .builtin F cs b = .error (.unbound v)) :
    ∃ e x, Visits F cs b (.guard e) x ∧ e.holds x = .error (.unbound v) :=
  exists_visits_of_forall (fun c _ => exists_visits_of_search_eq_unbound v c) h

/-- In a conjunction without issues, every guard that solving comes to has values for its
variables. -/
theorem isBound_of_visits {e : Expr Term} (h : Visits F cs b (.guard e) x)
    (hcs : Condition.issuesOfAll later bound cs = []) (hb : ∀ v ∈ bound, b.isBound v)
    {v : Variable} (hv : v ∈ e.vars) : x.isBound v := by
  -- the induction carries that what the check takes to be bound has a value
  generalize hg : Condition.guard e = g at h
  induction h generalizing bound with
  | here c cs b =>
    rw [Condition.issuesOfAll, List.append_eq_nil_iff, ← hg] at hcs
    exact hb v (Condition.mem_of_issues_guard hcs.1 hv)
  | inside cs _ ih =>
    rw [Condition.issuesOfAll, List.append_eq_nil_iff] at hcs
    exact ih (Condition.issuesOfAll_of_issues_negation hcs.1) hb hg
  | later hmids hm _ ih =>
    rw [Condition.issuesOfAll, List.append_eq_nil_iff] at hcs
    -- what the first condition binds has values in all its solutions
    have hext := extends_of_mem_search hmids hm
    refine ih hcs.2 (fun w hw => (hext.2 w).2 ?_) hg
    rcases List.mem_append.1 hw with hw | hw
    · exact Or.inl (hb w hw)
    · exact Or.inr hw

end Visits

/-! ## 3. Rules, engines and runs -/

section Valid

variable {F : FactBase} {v : Variable} {σ : Type}

namespace Rule

variable {r : Rule}

theorem solutions_ne_unbound (h : r.issues = []) : r.solutions .builtin F ≠ .error (.unbound v) := by
  intro hv
  rw [issues, List.append_eq_nil_iff] at h
  have ⟨e, x, hx, he⟩ := exists_visits_of_solve_eq_unbound hv
  have ⟨hmem, hnot⟩ := Expr.unbound_of_holds_eq_error he
  exact hnot (isBound_of_visits hx h.1 (fun w hw => absurd hw List.not_mem_nil) hmem)

theorem isBound_of_mem_solutions (h : r.issues = []) {sols : List Binding}
    (hsols : r.solutions .builtin F = .ok sols) {b : Binding} (hb : b ∈ sols) {t : Tuple}
    (ht : t ∈ r.conclusions) (hv : v ∈ t.vars) : b.isBound v :=
  ((extends_of_mem_solve hsols hb).2 v).2 (Or.inr (mem_binders_of_issues h ht hv))

theorem ground_ne_error (h : r.issues = []) {sols : List Binding}
    (hsols : r.solutions .builtin F = .ok sols) {b : Binding} (hb : b ∈ sols) {t : Tuple}
    (ht : t ∈ r.conclusions) (err : UnboundVariable) : t.ground b ≠ .error err := by
  intro herr
  have ⟨hmem, hnot⟩ := Tuple.unbound_of_ground_eq_error herr
  exact hnot (isBound_of_mem_solutions h hsols hb ht hmem)

end Rule

namespace Engine

variable {e : Engine}

theorem candidates_ne_unbound (he : e.forms = .builtin) (h : ∀ r ∈ e.rules, r.issues = []) :
    e.candidates F ≠ .error (.unbound v) := by
  intro hv
  rcases exists_of_candidates_eq_error hv with ⟨r, hr, hv | ⟨sols, hsols, b, hb, hv⟩⟩
  · rw [he] at hv
    exact Rule.solutions_ne_unbound (h r hr) hv
  · rw [he] at hsols
    rw [offers] at hv
    -- only the productive mode looks at conclusions here
    by_cases hp : e.productiveOnly = true
    · rw [if_pos hp] at hv
      have ⟨err, herr, _⟩ := mapError_eq_error_iff.1 hv
      have ⟨t, ht, hg⟩ := Rule.exists_of_isProductive_eq_error herr
      exact Rule.ground_ne_error (h r hr) hsols hb ht err hg
    · rw [if_neg hp] at hv
      cases hv

theorem step_ne_unbound (he : e.forms = .builtin) (h : ∀ r ∈ e.rules, r.issues = [])
    (strategy : Strategy σ) (state : σ) : (e.step strategy F state).1 ≠ .error (.unbound v) := by
  intro hv
  rcases exists_of_step_eq_error hv with hcs | ⟨cs, hcs, _, ⟨_, hinv⟩ | ⟨c, hc, hfire⟩⟩
  · exact candidates_ne_unbound he h hcs
  · cases hinv
  · have ⟨hr, sols, hsols, hb, _⟩ := (mem_of_candidates_eq_ok hcs c).1 hc
    rw [he] at hsols
    have ⟨t, ht, u, hg, _⟩ := Candidate.exists_of_fire_eq_error hfire
    exact Rule.ground_ne_error (h _ (List.mem_of_getElem? hr)) hsols hb ht u hg

end Engine

namespace Run

variable {r : Run σ}

theorem step_ne_unbound (he : r.engine.forms = .builtin)
    (h : ∀ r' ∈ r.engine.rules, r'.issues = []) : r.step.1 ≠ .error (.unbound v) :=
  fun hv => Engine.step_ne_unbound he h r.strategy r.state (engine_step_eq_error hv)

theorem next_ne_unbound (he : r.engine.forms = .builtin)
    (h : ∀ r' ∈ r.engine.rules, r'.issues = []) : r.next.1 ≠ some (.error (.unbound v)) := by
  intro hv
  rcases r.next_cases with ⟨_, hn⟩ | ⟨_, _, ⟨_, hn⟩ | ⟨_, hn⟩ | ⟨err, herr, hn⟩⟩
  · rw [hn] at hv; cases hv
  · rw [hn] at hv; cases hv
  · rw [hn] at hv; cases hv
  · rw [hn] at hv
    cases hv
    exact step_ne_unbound he h herr

theorem complete_ne_unbound (he : r.engine.forms = .builtin)
    (h : ∀ r' ∈ r.engine.rules, r'.issues = []) (n : Nat) :
    r.complete n ≠ .error (.unbound v) := by
  intro hv
  rcases r.complete_cases n with ⟨_, hc⟩ | ⟨m, _, _, ⟨err, herr, hc⟩ | ⟨_, hc⟩⟩
  · rw [hc] at hv; cases hv
  · rw [hc] at hv
    cases hv
    refine step_ne_unbound (r := r.after m) ?_ ?_ herr
    · rw [engine_after, he]
    · rw [engine_after]
      exact h
  · rw [hc] at hv; cases hv

end Run

/-- Over a valid domain with the built-in forms, nothing fails for an unbound variable: whatever the
facts, the strategy and the mode, and however a run is moved. Every guard that solving comes to, at
any depth, has values for its variables, and so has every conclusion. -/
theorem Domain.validate_sound {d : Domain} (hforms : d.forms = .builtin) (h : d.validate = .ok ()) :
    (∀ p F v, (d.engine p).candidates F ≠ .error (.unbound v)) ∧
    (∀ (σ : Type) (strategy : Strategy σ) (state : σ) (p : Bool) (F : FactBase) (v : Variable),
      ((d.engine p).step strategy F state).1 ≠ .error (.unbound v) ∧
      ∀ moves : List Run.Move,
        (moves.foldl Run.move ((d.engine p).run strategy state F)).step.1 ≠ .error (.unbound v) ∧
        (moves.foldl Run.move ((d.engine p).run strategy state F)).next.1
          ≠ some (.error (.unbound v))) ∧
    (∀ (σ : Type) (s : Simulation σ) (v : Variable), s.domain = d →
      s.outcome ≠ .error (.unbound v)) ∧
    ∀ r ∈ d.rules, ∀ F,
      (∀ e x, Visits F r.conditions ∅ (.guard e) x → ∀ v ∈ e.vars, x.isBound v) ∧
      ∀ sols, r.solutions .builtin F = .ok sols →
        ∀ b ∈ sols, ∀ t ∈ r.conclusions, ∀ v ∈ t.vars, b.isBound v := by
  have hrules : ∀ r ∈ d.rules, r.issues = [] := validate_eq_ok_iff.1 h
  refine ⟨fun p F v => Engine.candidates_ne_unbound hforms hrules,
    fun σ strategy state p F v => ⟨Engine.step_ne_unbound hforms hrules strategy state,
      fun moves => ?_⟩, fun σ s v hs => ?_, fun r hr F => ⟨fun e x hx v hv => ?_, ?_⟩⟩
  · have heng := Run.engine_moves ((d.engine p).run strategy state F) moves
    have hf : (moves.foldl Run.move ((d.engine p).run strategy state F)).engine.forms = .builtin := by
      rw [heng]
      exact hforms
    have hr : ∀ r ∈ (moves.foldl Run.move ((d.engine p).run strategy state F)).engine.rules,
        r.issues = [] := by
      rw [heng]
      exact hrules
    exact ⟨Run.step_ne_unbound hf hr, Run.next_ne_unbound hf hr⟩
  · cases hs
    exact Run.complete_ne_unbound hforms hrules s.maxSteps
  · have hcs := hrules r hr
    rw [Rule.issues, List.append_eq_nil_iff] at hcs
    exact isBound_of_visits hx hcs.1 (fun w hw => absurd hw List.not_mem_nil) hv
  · exact fun sols hsols b hb t ht v hv => Rule.isBound_of_mem_solutions (hrules r hr) hsols hb ht hv

end Valid

/-- A rule that gives `(top ?x)` for `(size ?x)` if no larger size is there that is not banned, and a
rule with a form that is not registered. -/
def Domain.topOf (size banned top : Atom) : Domain :=
  let x : Term := .var ⟨0⟩
  let y : Term := .var ⟨1⟩
  { rules :=
      [{ conditions :=
          [.tuple [.const size, x],
           .negation [.tuple [.const size, y], .negation [.tuple [.const banned, y]],
             .guard (.binary (.order .lt) (.leaf x) (.leaf y))]]
         conclusions := [[.const top, x]] },
       { conditions := [.form ⟨7⟩ [.term x]]
         conclusions := [[.const top, x]] }] }

theorem validate_sound_topOf :
    let d := Domain.topOf (.symbol ⟨2⟩) (.symbol ⟨3⟩) (.symbol ⟨4⟩)
    d.forms = .builtin ∧ d.validate = .ok () ∧
      ∀ p F v, (d.engine p).candidates F ≠ .error (.unbound v) :=
  ⟨rfl, by decide, (Domain.validate_sound rfl (by decide)).1⟩

end ForwardChaining
