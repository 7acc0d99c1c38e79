import ForwardChaining.Proofs.Distinctness
import ForwardChaining.Proofs.Relevance

/-!
# Reordering — rules without issues do not depend on the order of their conditions

A binding keeps a condition if the condition, resolved under it, has just this binding as its
solution. In a conjunction without issues the solutions are the bindings of the right variables that
keep every condition (`mem_solve_iff_keeps`): a negation sees no value where it stands that it does not
see at the end. This does not mention an order, and no solution is found twice, so a rule without
issues has the same solutions in every order of its conditions (`Rule.solutions_perm`).
-/

namespace ForwardChaining

/-! ## 1. Conditions that are kept -/

section Keeps

variable {F : FactBase} {c : Binding}

/-- Whether a condition that is resolved under a binding has just this binding as its solution. -/
def Condition.Keeps (F : FactBase) (c : Binding) (k : Condition) : Prop :=
  k.search .builtin F c = .ok [c]

theorem Condition.keeps_tuple_iff {t : Tuple} (ht : t.IsPlain) :
    (tuple t).Keeps F c ↔ ∃ f ∈ F, t.ground c = .ok f := by
  rw [Keeps, search_tuple_eq_ok_iff ht]
  constructor
  · intro h
    exact ((FactBase.mem_of_query_eq_ok h c).1 (List.mem_singleton_self c)).2
  · intro ⟨f, hf, hg⟩
    rw [FactBase.query_of_ground hg, if_pos hf]

theorem Condition.keeps_negation_iff {body : List Condition} :
    (negation body).Keeps F c ↔ solve .builtin F body c = .ok [] := by
  rw [Keeps, search_negation_eq_ok_iff]
  constructor
  · intro ⟨inner, hinner, h⟩
    by_cases hnil : inner = []
    · rw [hinner, hnil]
    · rw [if_neg hnil] at h
      cases h
  · intro h
    exact ⟨[], h, rfl⟩

theorem Condition.keeps_guard_iff {e : Expr Term} :
    (guard e).Keeps F c ↔ e.holds c = .ok true := by
  rw [Keeps, search_guard_eq_ok_iff]
  constructor
  · intro ⟨p, hp, h⟩
    cases p with
    | true => exact hp
    | false => cases h
  · intro h
    exact ⟨true, h, rfl⟩

end Keeps

/-! ## 2. One condition without issues -/

section Step

variable {F : FactBase} {b c : Binding} {mids : List Binding} {later bound vs : List Variable}

theorem Condition.mem_of_issues_negation {body : List Condition}
    (h : (negation body).issues later bound = []) {v : Variable}
    (hv : v ∈ body.flatMap Condition.vars) (hlater : v ∈ later) : v ∈ bound := by
  rw [negation, issues, if_neg (by decide), if_pos rfl, List.append_eq_nil_iff,
    List.map_eq_nil_iff] at h
  have hnegated : v ∈ Argument.negated (body.map .condition) := by
    rwa [Argument.mem_negated, filterMap_condition?_map]
  have hfilter := List.filter_eq_nil_iff.1 h.1 v (VariableSet.mem_toList.2 hnegated)
  by_contra hb
  exact hfilter (decide_eq_true ⟨hb, hlater⟩)

theorem exists_match_extends_iff {t : Tuple} (h : F.query t b = .ok mids) :
    (∃ m ∈ mids, m.Extends vs c) ↔
      b.Extends (t.vars ++ vs) c ∧ ∃ f ∈ F, t.ground c = .ok f := by
  constructor
  · intro ⟨m, hm, hmc⟩
    have ⟨hbm, f, hf, hg⟩ := (FactBase.mem_of_query_eq_ok h m).1 hm
    exact ⟨hbm.trans hmc, f, hf, Tuple.ground_of_subset hmc.1 hg⟩
  · intro ⟨hbc, f, hf, hg⟩
    -- the match with the fact that the tuple grounds to is a part of `c`
    have ⟨m, hmatch, hmc⟩ := Tuple.matchFact_complete hbc.1 hg
    have ⟨hbm, hgm⟩ := Tuple.matchFact_sound hmatch
    refine ⟨m, (FactBase.mem_of_query_eq_ok h m).2 ⟨hbm, f, hf, hgm⟩, hmc, fun v => ?_⟩
    rw [hbc.2 v, hbm.2 v, List.mem_append, or_assoc]

theorem exists_mem_ite_extends_iff {p : Prop} [Decidable p] :
    (∃ m ∈ (if p then [b] else []), m.Extends vs c) ↔ b.Extends vs c ∧ p := by
  by_cases hp : p
  · simp [hp]
  · simp [hp]

/-- A solution of a condition without issues can be extended to a binding exactly if the start can, and
the binding keeps the condition. -/
theorem exists_mem_search_extends_iff {k : Condition} (hk : k.issues later bound = [])
    (hb : ∀ v ∈ bound, b.isBound v) (hc : ∀ v, c.isBound v → v ∈ later)
    (h : k.search .builtin F b = .ok mids) :
    (∃ m ∈ mids, m.Extends vs c) ↔ b.Extends (k.binders ++ vs) c ∧ k.Keeps F c := by
  cases k.kind with
  | tuple t ht =>
    rw [Condition.keeps_tuple_iff ht]
    exact exists_match_extends_iff ((search_tuple_eq_ok_iff ht).1 h)
  | negation body =>
    obtain ⟨inner, hinner, rfl⟩ := search_negation_eq_ok_iff.1 h
    rw [exists_mem_ite_extends_iff, Condition.keeps_negation_iff]
    show b.Extends vs c ∧ _ ↔ b.Extends vs c ∧ _
    refine and_congr_right fun hext => ?_
    -- what `c` binds besides does not occur in the body, so the body is solved alike
    have hagree : Binding.AgreeOn (body.flatMap Condition.vars) b c :=
      Binding.agreeOn_of_subset hext.1 fun v hv hvc =>
        hb v (Condition.mem_of_issues_negation hk hv (hc v hvc))
    have ⟨inner', hinner', hrel⟩ :=
      (solve_congr F (List.Subset.refl _) hagree).exists_ok hinner
    rw [hinner', Except.ok.injEq, ← List.length_eq_zero_iff, ← List.length_eq_zero_iff,
      hrel.length_eq]
  | guard e =>
    obtain ⟨p, hp, rfl⟩ := search_guard_eq_ok_iff.1 h
    rw [exists_mem_ite_extends_iff, Condition.keeps_guard_iff]
    show b.Extends vs c ∧ _ ↔ b.Extends vs c ∧ _
    refine and_congr_right fun hext => ?_
    rw [Expr.holds_of_subset hext.1 hp, Except.ok.injEq]
  | rejected _ hr => exact absurd h hr.search_ne_ok

end Step

/-! ## 3. Conjunctions and rules -/

section Rules

variable {F : FactBase} {b c : Binding} {sols : List Binding}

/-- The solutions of a conjunction without issues are the bindings of its variables that keep all its
conditions. -/
theorem mem_solve_iff_keeps {cs : List Condition} {later bound : List Variable}
    (hcs : Condition.issuesOfAll later bound cs = []) (hb : ∀ v ∈ bound, b.isBound v)
    (hc : ∀ v, c.isBound v → v ∈ later) (h : solve .builtin F cs b = .ok sols) :
    c ∈ sols ↔ b.Extends (cs.flatMap Condition.binders) c ∧ ∀ k ∈ cs, k.Keeps F c := by
  -- by induction on the conditions: what the check takes to be bound has a value
  induction cs generalizing b bound sols with
  | nil =>
    cases h
    rw [List.mem_singleton, List.flatMap_nil]
    constructor
    · intro hcb
      rw [hcb]
      exact ⟨Binding.Extends.refl b, fun k hk => absurd hk List.not_mem_nil⟩
    · intro ⟨hext, _⟩
      exact hext.eq_of_isBound fun v hv => absurd hv List.not_mem_nil
  | cons k cs ih =>
    rw [Condition.issuesOfAll, List.append_eq_nil_iff] at hcs
    have ⟨mids, hmids, hrest⟩ := exists_solve_cons_eq_ok_iff.1 ⟨sols, h⟩
    -- the other conditions are solved from bindings that bind what the first condition does
    have hmid : ∀ m ∈ mids, ∀ v ∈ bound ++ k.binders, m.isBound v := by
      intro m hm v hv
      have hext := extends_of_mem_search hmids hm
      rcases List.mem_append.1 hv with hv | hv
      · exact (hext.2 v).2 (Or.inl (hb v hv))
      · exact (hext.2 v).2 (Or.inr hv)
    have hmem : c ∈ sols ↔ ∃ m ∈ mids, m.Extends (cs.flatMap Condition.binders) c ∧
        ∀ k ∈ cs, k.Keeps F c := by
      rw [mem_of_solve_cons_eq_ok hmids h]
      refine exists_congr fun m => and_congr_right fun hm => ?_
      have ⟨sols', hsols'⟩ := hrest m hm
      rw [← ih hcs.2 (hmid m hm) hsols', hsols']
      simp only [Except.ok.injEq, exists_eq_left']
    rw [hmem, List.forall_mem_cons, List.flatMap_cons, ← and_assoc,
      ← exists_mem_search_extends_iff hcs.1 hb hc hmids]
    simp only [← and_assoc, exists_and_right]

theorem Rule.mem_solutions_iff_keeps {r : Rule} (hr : r.issues = [])
    (h : r.solutions .builtin F = .ok sols) :
    c ∈ sols ↔ Binding.Extends ∅ r.binders c ∧ ∀ k ∈ r.conditions, k.Keeps F c := by
  rw [issues, List.append_eq_nil_iff] at hr
  -- a solution binds the variables of the rule and no others
  have hmem : Binding.Extends ∅ r.binders c →
      (c ∈ sols ↔ Binding.Extends ∅ r.binders c ∧ ∀ k ∈ r.conditions, k.Keeps F c) := fun hext =>
    mem_solve_iff_keeps hr.1 (fun v hv => absurd hv List.not_mem_nil)
      (fun v hv => ((hext.2 v).1 hv).resolve_left fun h => (nomatch h)) h
  constructor
  · intro hc
    exact (hmem (extends_of_mem_solve h hc)).1 hc
  · intro hc
    exact (hmem hc.1).2 hc

/-- Two rules without issues that have the same conditions in different orders have the same solutions,
each as often, wherever both can be solved. -/
theorem Rule.solutions_perm {r s : Rule} (hperm : r.conditions.Perm s.conditions)
    (hr : r.issues = []) (hs : s.issues = []) {sols' : List Binding}
    (h : r.solutions .builtin F = .ok sols) (h' : s.solutions .builtin F = .ok sols') :
    sols.Perm sols' := by
  have hbinders : ∀ v, v ∈ r.binders ↔ v ∈ s.binders := fun v =>
    (hperm.flatMap_right Condition.binders).mem_iff
  have hext : ∀ c, Binding.Extends ∅ r.binders c ↔ Binding.Extends ∅ s.binders c := fun c => by
    simp only [Binding.Extends, hbinders]
  have hmem : ∀ c, c ∈ sols ↔ c ∈ sols' := by
    intro c
    rw [mem_solutions_iff_keeps hr h, mem_solutions_iff_keeps hs h', hext]
    simp only [hperm.mem_iff]
  exact (List.perm_ext_iff_of_nodup (solve_nodup h) (solve_nodup h')).2 hmem

end Rules

/-- The condition `(not (number ?z) (if (and (< ?x ?z) (< ?z ?y))))`: no number is between two others. -/
def Condition.noneBetween (number : Atom) (x y z : Variable) : Condition :=
  let less (v w : Variable) : Expr Term := .binary (.order .lt) (.leaf (.var v)) (.leaf (.var w))
  .negation [.tuple [.const number, .var z], .guard (.binary (.logic .and) (less x z) (less z y))]

/-- Among `3`, `1` and `2`, neighbours are found from the smaller number or from the larger one. -/
theorem solutions_perm_neighbours :
    let number : Atom := .symbol ⟨2⟩
    let F : FactBase := .ofList [[number, .integer 3], [number, .integer 1], [number, .integer 2]]
    let isNumber (v : Variable) : Condition := .tuple [.const number, .var v]
    let less : Condition := .guard (.binary (.order .lt) (.leaf (.var ⟨0⟩)) (.leaf (.var ⟨1⟩)))
    let none : Condition := .noneBetween number ⟨0⟩ ⟨1⟩ ⟨2⟩
    let r : Rule := { conditions := [isNumber ⟨0⟩, isNumber ⟨1⟩, less, none] }
    let s : Rule := { conditions := [isNumber ⟨1⟩, isNumber ⟨0⟩, none, less] }
    let low : Binding := ⟨⟨[(0, .integer 1), (1, .integer 2)], by decide⟩⟩
    let high : Binding := ⟨⟨[(0, .integer 2), (1, .integer 3)], by decide⟩⟩
    r.conditions.Perm s.conditions ∧ r.issues = [] ∧ s.issues = [] ∧
      r.solutions .builtin F = .ok [low, high] ∧ s.solutions .builtin F = .ok [high, low] ∧
      [low, high].Perm [high, low] := by
  intro number F isNumber less none r s low high
  have hperm : r.conditions.Perm s.conditions :=
    (List.Perm.swap _ _ _).trans (((List.Perm.swap _ _ _).cons _).cons _)
  have hr : r.issues = [] := by decide
  have hs : s.issues = [] := by decide
  have h : r.solutions .builtin F = .ok [low, high] := by decide
  have h' : s.solutions .builtin F = .ok [high, low] := by decide
  exact ⟨hperm, hr, hs, h, h', Rule.solutions_perm hperm hr hs h h'⟩

end ForwardChaining
