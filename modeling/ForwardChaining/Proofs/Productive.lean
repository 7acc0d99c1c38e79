import ForwardChaining.Proofs.Sequence

/-!
# Productive mode — every derivation adds a fact

In productive mode an engine offers only instances with a new conclusion. So every derivation makes
the facts more (`Run.size_add_derivations_le`), and there is no candidate exactly where the facts are
closed under the rules (`Engine.candidates_eq_nil_iff`).
-/

namespace ForwardChaining

namespace Engine

variable {e : Engine} {F G : FactBase}

/-- The engine of some rules in productive mode, with the built-in forms. -/
def productive (rules : List Rule) : Engine where
  rules := rules
  productiveOnly := true

theorem offers_eq_ok_iff (he : e.productiveOnly = true) {r : Rule} {b : Binding} {p : Bool} :
    e.offers F r b = .ok p ↔ r.isProductive b F = .ok p := by
  rw [offers, if_pos he, mapError_eq_ok_iff]

theorem exists_new_of_mem_candidates (he : e.productiveOnly = true) {cs : List Candidate}
    (hcs : e.candidates F = .ok cs) {c : Candidate} (hc : c ∈ cs) :
    ∃ t ∈ c.rule.conclusions, ∃ f, t.ground c.binding = .ok f ∧ f ∉ F := by
  have ⟨_, _, _, _, hoff⟩ := (mem_of_candidates_eq_ok hcs c).1 hc
  exact Rule.exists_of_isProductive_eq_true ((offers_eq_ok_iff he).1 hoff)

theorem size_lt_of_fire_eq_ok (he : e.productiveOnly = true) {cs : List Candidate}
    (hcs : e.candidates F = .ok cs) {c : Candidate} (hc : c ∈ cs) (hG : c.fire F = .ok G) :
    F.size < G.size := by
  have ⟨t, ht, f, hf, hnew⟩ := exists_new_of_mem_candidates he hcs hc
  -- the conclusion that made the candidate productive is added
  have hmem : f ∈ G := (Candidate.mem_of_fire_eq_ok hG f).2 (Or.inr ⟨t, ht, hf⟩)
  exact FactBase.size_lt_of_subset (Candidate.subset_of_fire_eq_ok hG) hnew hmem

/-- There is no candidate exactly if the facts are closed: all conditions can be solved, and the
conclusions of every solution are known. -/
theorem candidates_eq_nil_iff (he : e.productiveOnly = true) :
    e.candidates F = .ok [] ↔ ∀ r ∈ e.rules, ∃ sols, r.solutions e.forms F = .ok sols ∧
      ∀ b ∈ sols, ∀ t ∈ r.conclusions, ∃ f ∈ F, t.ground b = .ok f := by
  refine ⟨fun h r hr => ?_, fun h => ?_⟩
  · have ⟨sols, hsols, hoff⟩ := exists_candidates_eq_ok_iff.1 ⟨_, h⟩ r hr
    refine ⟨sols, hsols, fun b hb => Rule.isProductive_eq_false_iff.1 ?_⟩
    have ⟨p, hp⟩ := hoff b hb
    cases p with
    | false => exact (offers_eq_ok_iff he).1 hp
    | true =>
      have ⟨i, hi⟩ := List.getElem?_of_mem hr
      have hc : (⟨i, r, b⟩ : Candidate) ∈ ([] : List Candidate) :=
        (mem_of_candidates_eq_ok h _).2 ⟨hi, sols, hsols, hb, hp⟩
      exact absurd hc List.not_mem_nil
  · have hfalse : ∀ r ∈ e.rules, ∃ sols, r.solutions e.forms F = .ok sols ∧
        ∀ b ∈ sols, e.offers F r b = .ok false := by
      intro r hr
      have ⟨sols, hsols, hknown⟩ := h r hr
      refine ⟨sols, hsols, fun b hb => (offers_eq_ok_iff he).2 ?_⟩
      exact Rule.isProductive_eq_false_iff.2 (hknown b hb)
    have ⟨cs, hcs⟩ := (exists_candidates_eq_ok_iff (e := e) (F := F)).2 fun r hr => by
      have ⟨sols, hsols, hoff⟩ := hfalse r hr
      exact ⟨sols, hsols, fun b hb => ⟨false, hoff b hb⟩⟩
    have hnil : cs = [] := List.eq_nil_iff_forall_not_mem.2 fun c hc => by
      have ⟨hr, sols, hsols, hb, hoff⟩ := (mem_of_candidates_eq_ok hcs c).1 hc
      have ⟨sols', hsols', hfalse⟩ := hfalse c.rule (List.mem_of_getElem? hr)
      cases hsols.symm.trans hsols'
      cases hoff.symm.trans (hfalse c.binding hb)
    rw [hcs, hnil]

end Engine

namespace Run

variable {σ : Type}

theorem size_lt_step {r : Run σ} (he : r.engine.productiveOnly = true)
    (h : r.step.1 = .ok .derived) : r.facts.size < r.step.2.facts.size := by
  have ⟨G, s, hG, hs⟩ := exists_of_step_eq_derived h
  have ⟨cs, hcs, c, hc, hfire⟩ := Engine.exists_of_step_eq_some (congrArg Prod.fst hG)
  rw [hs]
  exact Engine.size_lt_of_fire_eq_ok he hcs hc hfire

/-- Every derivation of a productive run adds a fact. -/
theorem size_add_derivations_le {r : Run σ} (he : r.engine.productiveOnly = true) (n : Nat) :
    r.facts.size + r.derivations n ≤ (r.after n).facts.size := by
  induction n with
  | zero => exact Nat.le_refl _
  | succ n ih =>
    rw [derivations_succ, after_succ]
    -- only a derivation adds to the count, and it adds a fact
    by_cases h : r.answer n = .ok .derived
    · have hlt := size_lt_step (r := r.after n) (by rw [engine_after, he]) h
      rw [if_pos h]
      omega
    · have hle := FactBase.size_le_of_subset (facts_subset_step (r.after n))
      rw [if_neg h]
      omega

end Run

end ForwardChaining
