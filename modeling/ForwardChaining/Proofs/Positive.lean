import ForwardChaining.Proofs.Solving

/-!
# Positive conditions — more facts, more solutions

A condition is positive if it is a tuple or a guard. Positive conditions are monotone: where they can
be solved over some facts, they can be solved over fewer facts, and every solution there is a
solution here (`solve_mono`).
-/

namespace ForwardChaining

/-- Whether a condition is a tuple or a guard. -/
def Condition.isPositive : Condition → Bool
  | .tuple _ => true
  | .form head [.expr _] => head = .guard
  | .form _ _ => false

/-- Whether all conditions of a rule are tuples and guards. -/
def Rule.isPositive (r : Rule) : Bool :=
  r.conditions.all Condition.isPositive

theorem Condition.isPositive_negation (body : List Condition) :
    (Condition.negation body).isPositive = false := by
  cases body with
  | nil => rfl
  | cons c body =>
    cases body with
    | nil => rfl
    | cons d body => rfl

/-- A positive condition that can be solved over some facts can be solved over fewer, and has no
other solutions there. -/
theorem Condition.search_mono {c : Condition} (hc : c.isPositive) {F G : FactBase} (h : F ⊆ G)
    {b : Binding} {sols : List Binding} (hG : c.search .builtin G b = .ok sols) :
    ∃ sols', c.search .builtin F b = .ok sols' ∧ sols' ⊆ sols := by
  cases c.kind with
  | tuple t ht =>
    have ⟨sols', hF⟩ := F.exists_query_eq_ok t b
    refine ⟨sols', (search_tuple_eq_ok_iff ht).2 hF, fun x hx => ?_⟩
    have ⟨hext, f, hf, hg⟩ := (FactBase.mem_of_query_eq_ok hF x).1 hx
    have hG := (search_tuple_eq_ok_iff ht).1 hG
    exact (FactBase.mem_of_query_eq_ok hG x).2 ⟨hext, f, FactBase.mem_of_subset h hf, hg⟩
  | negation body =>
    rw [isPositive_negation] at hc
    cases hc
  | guard e =>
    -- a guard does not look at the facts
    obtain ⟨p, hp, rfl⟩ := search_guard_eq_ok_iff.1 hG
    exact ⟨_, search_guard_eq_ok_iff.2 ⟨p, hp, rfl⟩, List.Subset.refl _⟩
  | rejected _ hr => exact absurd hG hr.search_ne_ok

theorem solve_mono {cs : List Condition} (hcs : ∀ c ∈ cs, c.isPositive) {F G : FactBase}
    (h : F ⊆ G) {b : Binding} {sols : List Binding} (hG : solve .builtin G cs b = .ok sols) :
    ∃ sols', solve .builtin F cs b = .ok sols' ∧ sols' ⊆ sols := by
  induction cs generalizing b sols with
  | nil => exact ⟨sols, hG, List.Subset.refl _⟩
  | cons c cs ih =>
    have ⟨hc, hcs⟩ := List.forall_mem_cons.1 hcs
    have ⟨mids, hmids, hrest⟩ := exists_solve_cons_eq_ok_iff.1 ⟨sols, hG⟩
    -- fewer facts leave fewer ways through the first condition, each of which succeeds
    have ⟨mids', hmids', hsub⟩ := c.search_mono hc h hmids
    have hrest' : ∀ m ∈ mids', ∃ s', solve .builtin F cs m = .ok s' := fun m hm => by
      have ⟨s, hs⟩ := hrest m (hsub hm)
      have ⟨s', hs', _⟩ := ih hcs hs
      exact ⟨s', hs'⟩
    have ⟨sols', hF⟩ := exists_solve_cons_eq_ok_iff.2 ⟨mids', hmids', hrest'⟩
    refine ⟨sols', hF, fun x hx => ?_⟩
    have ⟨m, hm, s', hs', hx⟩ := (mem_of_solve_cons_eq_ok hmids' hF x).1 hx
    have ⟨s, hs⟩ := hrest m (hsub hm)
    have ⟨s'', hs'', hsub'⟩ := ih hcs hs
    cases hs'.symm.trans hs''
    exact (mem_of_solve_cons_eq_ok hmids hG x).2 ⟨m, hsub hm, s, hs, hsub' hx⟩

theorem Rule.solutions_mono {r : Rule} (hr : r.isPositive) {F G : FactBase} (h : F ⊆ G)
    {sols : List Binding} (hG : r.solutions .builtin G = .ok sols) :
    ∃ sols', r.solutions .builtin F = .ok sols' ∧ sols' ⊆ sols :=
  solve_mono (List.all_eq_true.1 hr) h hG

end ForwardChaining
