import ForwardChaining.Inference.Solver
import ForwardChaining.Proofs.Evaluation
import ForwardChaining.Rule.Scoping

/-!
# Solving — what a conjunction finds

A conjunction is solved by its first condition, each of whose solutions is extended by the others.
The lemmas of the first section take a list of conditions apart in this way, for every registry. The
others are about the registry of negations and guards: under it a condition is a tuple that is looked
up, a negation, a guard, or it is rejected under every binding (`Condition.kind`).
-/

namespace ForwardChaining

/-! ## 1. Conjunctions -/

section Conjunction

variable {r : Registry} {F : FactBase} {c : Condition} {cs : List Condition} {b : Binding}

theorem solve_cons : solve r F (c :: cs) b = do
    let mids ← c.search r F b
    return (← mids.mapM (solve r F cs)).flatten := rfl

theorem solve_cons_eq_ok_iff {sols : List Binding} :
    solve r F (c :: cs) b = .ok sols ↔
      ∃ mids, c.search r F b = .ok mids ∧
        ∃ groups, mids.mapM (solve r F cs) = .ok groups ∧ sols = groups.flatten := by
  show (c.search r F b >>= fun mids => mids.mapM (solve r F cs) >>= fun groups =>
    pure groups.flatten) = _ ↔ _
  rw [bind_eq_ok_iff]
  refine exists_congr fun mids => and_congr_right fun _ => ?_
  rw [bind_eq_ok_iff]
  refine exists_congr fun groups => and_congr_right fun _ => ?_
  exact ⟨fun h => (Except.ok.inj h).symm, fun h => congrArg Except.ok h.symm⟩

theorem exists_solve_cons_eq_ok_iff :
    (∃ sols, solve r F (c :: cs) b = .ok sols) ↔
      ∃ mids, c.search r F b = .ok mids ∧ ∀ m ∈ mids, ∃ sols, solve r F cs m = .ok sols := by
  simp only [solve_cons_eq_ok_iff, ← exists_mapM_eq_ok_iff]
  refine ⟨fun ⟨_, mids, hm, groups, hg, _⟩ => ⟨mids, hm, groups, hg⟩,
    fun ⟨mids, hm, groups, hg⟩ => ⟨groups.flatten, mids, hm, groups, hg, rfl⟩⟩

theorem mem_of_solve_cons_eq_ok {mids sols : List Binding} (hmids : c.search r F b = .ok mids)
    (h : solve r F (c :: cs) b = .ok sols) (x : Binding) :
    x ∈ sols ↔ ∃ m ∈ mids, ∃ sols', solve r F cs m = .ok sols' ∧ x ∈ sols' := by
  obtain ⟨mids', hmids', groups, hgroups, rfl⟩ := solve_cons_eq_ok_iff.1 h
  cases hmids.symm.trans hmids'
  rw [List.mem_flatten]
  simp only [mem_of_mapM_eq_ok hgroups]
  exact ⟨fun ⟨g, ⟨m, hm, hg⟩, hx⟩ => ⟨m, hm, g, hg, hx⟩,
    fun ⟨m, hm, g, hg, hx⟩ => ⟨g, ⟨m, hm, hg⟩, hx⟩⟩

theorem solve_cons_eq_error {e : InferenceError} (h : solve r F (c :: cs) b = .error e) :
    c.search r F b = .error e ∨
      ∃ mids, c.search r F b = .ok mids ∧ ∃ m ∈ mids, solve r F cs m = .error e := by
  rcases bind_eq_error_iff.1 h with h | ⟨mids, hmids, h⟩
  · exact Or.inl h
  · rcases bind_eq_error_iff.1 h with h | ⟨groups, _, h⟩
    · exact Or.inr ⟨mids, hmids, exists_mem_of_mapM_eq_error h⟩
    · cases h

end Conjunction

/-! ## 2. Conditions under the built-in forms -/

/-- Whether a tuple is looked up in the facts. A tuple with the head of a negation or a guard is
not. -/
def Tuple.IsPlain (t : Tuple) : Prop :=
  t.head? ≠ some .negation ∧ t.head? ≠ some .guard

instance (t : Tuple) : Decidable t.IsPlain :=
  inferInstanceAs (Decidable (_ ∧ _))

/-- Whether a condition is malformed, so that it cannot be resolved under any binding. -/
def Condition.Rejected (c : Condition) : Prop :=
  ∃ reason, ∀ F b, c.search .builtin F b = Form.reject c reason

theorem Registry.find?_builtin (head : Symbol) :
    builtin.find? head
      = if head = .guard then some Form.guard
        else if head = .negation then some Form.negation else none := by
  rw [builtin, find?_register, find?_register, find?_plain]

theorem Registry.lookup_builtin_of_plain {t : Tuple} (h : t.IsPlain) :
    builtin.lookup (.tuple t) = .factMatch := by
  show (t.head?.bind builtin.find?).getD .factMatch = .factMatch
  cases hs : t.head? with
  | none => rfl
  | some s =>
    -- no form is registered for such a head
    have hg : s ≠ .guard := fun he => h.2 (he ▸ hs)
    have hn : s ≠ .negation := fun he => h.1 (he ▸ hs)
    rw [Option.bind_some, find?_builtin, if_neg hg, if_neg hn]
    rfl

theorem Registry.lookup_builtin_form (head : Symbol) (args : List Argument) :
    builtin.lookup (.form head args)
      = if head = .guard then .guard else if head = .negation then .negation else .factMatch := by
  show (builtin.find? head).getD .factMatch = _
  rw [find?_builtin]
  by_cases hg : head = .guard
  · rw [if_pos hg, if_pos hg]
    rfl
  · rw [if_neg hg, if_neg hg]
    by_cases hn : head = .negation
    · rw [if_pos hn, if_pos hn]
      rfl
    · rw [if_neg hn, if_neg hn]
      rfl

theorem Argument.exists_conditions {args : List Argument}
    (h : args.all (·.condition?.isSome) = true) : ∃ body : List Condition, args = body.map .condition := by
  induction args with
  | nil => exact ⟨[], rfl⟩
  | cons a args ih =>
    rw [List.all_cons, Bool.and_eq_true] at h
    obtain ⟨body, rfl⟩ := ih h.2
    cases a with
    | condition c => exact ⟨c :: body, rfl⟩
    | term t => cases h.1
    | expr e => cases h.1

theorem Form.guard_eq_reject {args : List Argument} (h : ∀ e, args ≠ [.expr e]) (F : FactBase)
    (head : Symbol) (nested : List Search) (b : Binding) :
    guard.resolve F (.form head args) nested b = reject (.form head args) .guard := by
  simp only [guard]
  split
  · next e he =>
    cases he
    exact absurd rfl (h _)
  · rfl

namespace Condition

theorem search_tuple {t : Tuple} (h : t.IsPlain) (F : FactBase) (b : Binding) :
    (tuple t).search .builtin F b = (F.query t b).mapError .rebinding := by
  rw [search, Registry.lookup_builtin_of_plain h]
  rfl

theorem all_condition?_map (body : List Condition) :
    (body.map Argument.condition).all (·.condition?.isSome) = true := by
  rw [List.all_map, List.all_eq_true]
  exact fun _ _ => rfl

theorem filterMap_condition?_map (body : List Condition) :
    (body.map Argument.condition).filterMap Argument.condition? = body := by
  rw [List.filterMap_map]
  exact List.filterMap_some

theorem search_negation (F : FactBase) (body : List Condition) (b : Binding) :
    (negation body).search .builtin F b = do
      let solutions ← solve .builtin F body b
      return if solutions.isEmpty then [b] else [] := by
  rw [negation, search, Registry.lookup_builtin_form, if_neg (by decide), if_pos rfl,
    Argument.searches_eq, filterMap_condition?_map]
  show (if (body.map Argument.condition).all (·.condition?.isSome) = true then _ else _) = _
  rw [if_pos (all_condition?_map body)]
  rfl

theorem search_guard (F : FactBase) (e : Expr Term) (b : Binding) :
    (guard e).search .builtin F b = do
      let p ← (e.holds b).mapError .ofEval
      return if p then [b] else [] := by
  rw [guard, search, Registry.lookup_builtin_form, if_pos rfl]
  rfl

/-- A condition as the built-in forms see it. -/
inductive Kind : Condition → Prop where
  | tuple (t : Tuple) (h : t.IsPlain) : Kind (.tuple t)
  | negation (body : List Condition) : Kind (.negation body)
  | guard (e : Expr Term) : Kind (.guard e)
  | rejected (c : Condition) (h : c.Rejected) : Kind c

theorem rejected_tuple {t : Tuple} (h : ¬ t.IsPlain) : (tuple t).Rejected := by
  have hs : t.head? = some .guard ∨ t.head? = some .negation := by
    by_cases hg : t.head? = some .guard
    · exact Or.inl hg
    · exact Or.inr (not_not.1 fun hn => h ⟨hn, hg⟩)
  rcases hs with hs | hs
  · refine ⟨.guard, fun F b => ?_⟩
    have hl : Registry.builtin.lookup (.tuple t) = .guard := by
      rw [Registry.lookup, show (tuple t).head? = some .guard from hs]
      rfl
    rw [search, hl]
    rfl
  · refine ⟨.negation, fun F b => ?_⟩
    have hl : Registry.builtin.lookup (.tuple t) = .negation := by
      rw [Registry.lookup, show (tuple t).head? = some .negation from hs]
      rfl
    rw [search, hl]
    rfl

theorem kind_guard (args : List Argument) : (form .guard args).Kind := by
  -- one expression is a guard, anything else is refused
  by_cases h : ∃ e, args = [.expr e]
  · obtain ⟨e, rfl⟩ := h
    exact Kind.guard e
  · refine Kind.rejected _ ⟨.guard, fun F b => ?_⟩
    rw [search, Registry.lookup_builtin_form, if_pos rfl]
    exact Form.guard_eq_reject (fun e he => h ⟨e, he⟩) F _ _ b

theorem kind_negation (args : List Argument) : (form .negation args).Kind := by
  -- a negation takes conditions only
  by_cases h : args.all (·.condition?.isSome) = true
  · obtain ⟨body, rfl⟩ := Argument.exists_conditions h
    exact Kind.negation body
  · refine Kind.rejected _ ⟨.negation, fun F b => ?_⟩
    rw [search, Registry.lookup_builtin_form, if_neg (by decide), if_pos rfl]
    show (if args.all (·.condition?.isSome) = true then _ else _) = _
    rw [if_neg h]

theorem kind (c : Condition) : c.Kind := by
  cases c with
  | tuple t =>
    by_cases h : t.IsPlain
    · exact Kind.tuple t h
    · exact Kind.rejected _ (rejected_tuple h)
  | form head args =>
    by_cases hg : head = .guard
    · rw [hg]
      exact kind_guard args
    · by_cases hn : head = .negation
      · rw [hn]
        exact kind_negation args
      · refine Kind.rejected _ ⟨.unregistered, fun F b => ?_⟩
        rw [search, Registry.lookup_builtin_form, if_neg hg, if_neg hn]
        rfl

theorem sizeOf_le_sizeOf_map (body : List Condition) :
    sizeOf body ≤ sizeOf (body.map Argument.condition) := by
  induction body with
  | nil => exact Nat.le_refl _
  | cons c body ih =>
    rw [List.map_cons, List.cons.sizeOf_spec, List.cons.sizeOf_spec, Argument.condition.sizeOf_spec]
    omega

theorem sizeOf_lt_sizeOf_negation (body : List Condition) : sizeOf body < sizeOf (negation body) := by
  have h := sizeOf_le_sizeOf_map body
  rw [negation, form.sizeOf_spec]
  omega

/-- Induction on conditions as the built-in forms see them. What is rejected needs no hypothesis
about its parts. -/
theorem induction {P : Condition → Prop} (tuple : ∀ t : Tuple, t.IsPlain → P (.tuple t))
    (negation : ∀ body, (∀ c ∈ body, P c) → P (.negation body)) (guard : ∀ e, P (.guard e))
    (rejected : ∀ c : Condition, c.Rejected → P c) (c : Condition) : P c := by
  cases c.kind with
  | tuple t h => exact tuple t h
  | negation body =>
    -- the conditions of the body are smaller than the negation
    refine negation body fun c hc => ?_
    have : sizeOf c < sizeOf (Condition.negation body) :=
      Nat.lt_trans (List.sizeOf_lt_of_mem hc) (sizeOf_lt_sizeOf_negation body)
    exact induction tuple negation guard rejected c
  | guard e => exact guard e
  | rejected _ h => exact rejected c h
termination_by sizeOf c

end Condition

/-! ## 3. Solutions under the built-in forms -/

section Solutions

variable {F : FactBase} {b x : Binding} {sols : List Binding}

theorem Condition.Rejected.search_ne_ok {c : Condition} (h : c.Rejected) :
    c.search .builtin F b ≠ .ok sols := by
  have ⟨reason, hr⟩ := h
  rw [hr]
  exact fun h => (nomatch h)

theorem search_tuple_eq_ok_iff {t : Tuple} (ht : t.IsPlain) :
    (Condition.tuple t).search .builtin F b = .ok sols ↔ F.query t b = .ok sols := by
  rw [Condition.search_tuple ht, mapError_eq_ok_iff]

theorem search_negation_eq_ok_iff {body : List Condition} :
    (Condition.negation body).search .builtin F b = .ok sols ↔
      ∃ inner, solve .builtin F body b = .ok inner ∧ sols = if inner = [] then [b] else [] := by
  rw [Condition.search_negation, bind_eq_ok_iff]
  refine exists_congr fun inner => and_congr_right fun _ => ?_
  simp only [List.isEmpty_iff]
  exact ⟨fun h => (Except.ok.inj h).symm, fun h => congrArg Except.ok h.symm⟩

theorem search_guard_eq_ok_iff {e : Expr Term} :
    (Condition.guard e).search .builtin F b = .ok sols ↔
      ∃ p, e.holds b = .ok p ∧ sols = if p = true then [b] else [] := by
  rw [Condition.search_guard, bind_eq_ok_iff]
  simp only [mapError_eq_ok_iff]
  refine exists_congr fun p => and_congr_right fun _ => ?_
  exact ⟨fun h => (Except.ok.inj h).symm, fun h => congrArg Except.ok h.symm⟩

/-- A solution of a condition is a match of its tuple, or the binding at hand: nothing else binds
variables. -/
theorem mem_search_cases {c : Condition} (h : c.search .builtin F b = .ok sols) (hx : x ∈ sols) :
    (∃ t, c = .tuple t ∧ b.Extends t.vars x ∧ ∃ f ∈ F, t.ground x = .ok f) ∨
      (c.binders = [] ∧ x = b) := by
  cases c.kind with
  | tuple t ht =>
    have hquery := (search_tuple_eq_ok_iff ht).1 h
    exact Or.inl ⟨t, rfl, (FactBase.mem_of_query_eq_ok hquery x).1 hx⟩
  | negation body =>
    obtain ⟨inner, _, rfl⟩ := search_negation_eq_ok_iff.1 h
    split at hx
    · exact Or.inr ⟨rfl, List.mem_singleton.1 hx⟩
    · cases hx
  | guard e =>
    obtain ⟨p, _, rfl⟩ := search_guard_eq_ok_iff.1 h
    split at hx
    · exact Or.inr ⟨rfl, List.mem_singleton.1 hx⟩
    · cases hx
  | rejected _ hc => exact absurd h hc.search_ne_ok

theorem extends_of_mem_search {c : Condition} (h : c.search .builtin F b = .ok sols)
    (hx : x ∈ sols) : b.Extends c.binders x := by
  rcases mem_search_cases h hx with ⟨t, rfl, hext, _⟩ | ⟨hnone, hxb⟩
  · exact hext
  · rw [hnone, hxb]
    exact Binding.Extends.refl b

theorem extends_of_mem_solve {cs : List Condition} (h : solve .builtin F cs b = .ok sols)
    (hx : x ∈ sols) : b.Extends (cs.flatMap Condition.binders) x := by
  induction cs generalizing b sols with
  | nil =>
    cases h
    rw [List.mem_singleton.1 hx]
    exact Binding.Extends.refl b
  | cons c cs ih =>
    have ⟨mids, hmids, _⟩ := solve_cons_eq_ok_iff.1 h
    have ⟨m, hm, sols', hsols', hx⟩ := (mem_of_solve_cons_eq_ok hmids h x).1 hx
    rw [List.flatMap_cons]
    exact (extends_of_mem_search hmids hm).trans (ih hsols' hx)

end Solutions

/-! ## 4. Conclusions under the solutions of a rule -/

namespace Rule

variable {r : Rule}

theorem mem_binders_of_no_conclusion_issue (h : ∀ v, Issue.conclusion v ∉ r.issues) {t : Tuple}
    (ht : t ∈ r.conclusions) {v : Variable} (hv : v ∈ t.vars) : v ∈ r.binders := by
  by_contra hb
  apply h v
  apply List.mem_append_right
  apply List.mem_map_of_mem
  rw [List.mem_filter, mem_ascending]
  exact ⟨List.mem_flatMap.2 ⟨t, ht, hv⟩, decide_eq_true hb⟩

theorem exists_ground_of_no_conclusion_issue (h : ∀ v, Issue.conclusion v ∉ r.issues) {c : Binding}
    (hc : Binding.Extends ∅ r.binders c) {t : Tuple} (ht : t ∈ r.conclusions) :
    ∃ f, t.ground c = .ok f := by
  apply Tuple.exists_ground_eq_ok_iff.2
  intro v hv
  exact (hc.2 v).2 (Or.inr (mem_binders_of_no_conclusion_issue h ht hv))

end Rule

end ForwardChaining
