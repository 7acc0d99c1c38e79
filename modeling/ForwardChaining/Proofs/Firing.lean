import ForwardChaining.Chaining.Transition
import ForwardChaining.Proofs.Failure
import Mathlib.Data.List.Nodup
import Mathlib.Data.List.Perm.Subperm

/-!
# Firing — candidates, and what they add

The candidates of an engine are the rule instances whose conditions hold and that the engine offers
(`Engine.mem_of_candidates_eq_ok`). Firing one adds the facts that its conclusions stand for, and
nothing else. In productive mode it always adds one.
-/

namespace ForwardChaining

/-! ## 1. Growing fact bases -/

namespace FactBase

theorem size_le_of_subset {F G : FactBase} (h : F ⊆ G) : F.size ≤ G.size :=
  (F.nodup.subperm h).length_le

theorem size_lt_of_subset {F G : FactBase} (h : F ⊆ G) {f : Fact} (hf : f ∉ F) (hg : f ∈ G) :
    F.size < G.size := by
  -- the new fact and the old ones are different members of `G`
  have hsub : f :: F.facts ⊆ G.facts := List.cons_subset.2 ⟨hg, h⟩
  exact ((List.nodup_cons.2 ⟨hf, F.nodup⟩).subperm hsub).length_le

end FactBase

/-! ## 2. Conclusions -/

namespace Rule

variable {r : Rule} {b : Binding} {F : FactBase}

theorem mem_of_instances_eq_ok {fs : List Fact} (h : r.instances b = .ok fs) (f : Fact) :
    f ∈ fs ↔ ∃ t ∈ r.conclusions, t.ground b = .ok f :=
  mem_of_mapM_eq_ok h f

theorem exists_instances_eq_ok_iff :
    (∃ fs, r.instances b = .ok fs) ↔ ∀ t ∈ r.conclusions, ∃ f, t.ground b = .ok f :=
  exists_mapM_eq_ok_iff

theorem isProductive_eq_false_iff :
    r.isProductive b F = .ok false ↔ ∀ t ∈ r.conclusions, ∃ f ∈ F, t.ground b = .ok f := by
  rw [isProductive, anyM_eq_false_iff]
  refine forall₂_congr fun t _ => ?_
  rw [bind_eq_ok_iff]
  refine ⟨fun ⟨f, hf, h⟩ => ?_, fun ⟨f, hmem, hf⟩ => ⟨f, hf, ?_⟩⟩
  · exact ⟨f, not_not.1 (of_decide_eq_false (Except.ok.inj h)), hf⟩
  · exact congrArg Except.ok (decide_eq_false (not_not.2 hmem))

theorem exists_of_isProductive_eq_true (h : r.isProductive b F = .ok true) :
    ∃ t ∈ r.conclusions, ∃ f, t.ground b = .ok f ∧ f ∉ F := by
  have ⟨t, ht, h⟩ := exists_mem_of_anyM_eq_true h
  have ⟨f, hf, h⟩ := bind_eq_ok_iff.1 h
  exact ⟨t, ht, f, hf, of_decide_eq_true (Except.ok.inj h)⟩

theorem exists_of_isProductive_eq_error {e : UnboundVariable} (h : r.isProductive b F = .error e) :
    ∃ t ∈ r.conclusions, t.ground b = .error e := by
  have ⟨t, ht, h⟩ := exists_mem_of_anyM_eq_error h
  rcases bind_eq_error_iff.1 h with h | ⟨f, _, h⟩
  · exact ⟨t, ht, h⟩
  · cases h

theorem exists_isProductive_eq_ok (h : ∀ t ∈ r.conclusions, ∃ f, t.ground b = .ok f) :
    ∃ p, r.isProductive b F = .ok p := by
  cases hp : r.isProductive b F with
  | ok p => exact ⟨p, rfl⟩
  | error e =>
    have ⟨t, ht, he⟩ := exists_of_isProductive_eq_error hp
    have ⟨f, hf⟩ := h t ht
    cases hf.symm.trans he

end Rule

/-! ## 3. Firing -/

namespace Candidate

variable {c : Candidate} {F G : FactBase}

theorem fire_eq_ok_iff :
    c.fire F = .ok G ↔ ∃ fs, c.rule.instances c.binding = .ok fs ∧ G = F.union fs := by
  rw [fire, mapError_eq_ok_iff, Rule.apply, bind_eq_ok_iff]
  refine exists_congr fun fs => and_congr_right fun _ => ?_
  exact ⟨fun h => (Except.ok.inj h).symm, fun h => congrArg Except.ok h.symm⟩

theorem exists_of_fire_eq_error {e : InferenceError} (h : c.fire F = .error e) :
    ∃ t ∈ c.rule.conclusions, ∃ u, t.ground c.binding = .error u ∧ e = .ofUnbound u := by
  obtain ⟨u, hu, rfl⟩ := mapError_eq_error_iff.1 h
  rcases bind_eq_error_iff.1 hu with hu | ⟨fs, _, hu⟩
  · have ⟨t, ht, hu⟩ := exists_mem_of_mapM_eq_error hu
    exact ⟨t, ht, u, hu, rfl⟩
  · cases hu

theorem subset_of_fire_eq_ok (h : c.fire F = .ok G) : F ⊆ G := by
  obtain ⟨fs, _, rfl⟩ := fire_eq_ok_iff.1 h
  exact F.subset_union fs

theorem mem_of_fire_eq_ok (h : c.fire F = .ok G) (f : Fact) :
    f ∈ G ↔ f ∈ F ∨ ∃ t ∈ c.rule.conclusions, t.ground c.binding = .ok f := by
  obtain ⟨fs, hfs, rfl⟩ := fire_eq_ok_iff.1 h
  rw [FactBase.mem_union, Rule.mem_of_instances_eq_ok hfs]

end Candidate

/-! ## 4. Candidates -/

namespace Engine

variable {e : Engine} {F : FactBase}

theorem candidatesOf_eq_ok_iff {r : Rule} {i : Nat} {cs : List Candidate} :
    e.candidatesOf F r i = .ok cs ↔ ∃ sols, r.solutions e.forms F = .ok sols ∧
      (sols.filterMapM fun b => do
        return if ← e.offers F r b then some (⟨i, r, b⟩ : Candidate) else none) = .ok cs :=
  bind_eq_ok_iff

theorem mem_of_candidatesOf_eq_ok {r : Rule} {i : Nat} {cs : List Candidate}
    (h : e.candidatesOf F r i = .ok cs) (c : Candidate) :
    c ∈ cs ↔ c.ruleIndex = i ∧ c.rule = r ∧ ∃ sols, r.solutions e.forms F = .ok sols ∧
      c.binding ∈ sols ∧ e.offers F r c.binding = .ok true := by
  have ⟨sols, hsols, h⟩ := candidatesOf_eq_ok_iff.1 h
  rw [mem_of_filterMapM_eq_ok h]
  refine ⟨fun ⟨b, hb, hc⟩ => ?_, fun ⟨hi, hr, sols', hsols', hb, hoff⟩ => ?_⟩
  · have ⟨p, hp, hc⟩ := bind_eq_ok_iff.1 hc
    cases p with
    | false => cases hc
    | true =>
      cases hc
      exact ⟨rfl, rfl, sols, hsols, hb, hp⟩
  · cases hsols.symm.trans hsols'
    refine ⟨c.binding, hb, bind_eq_ok_iff.2 ⟨true, hoff, ?_⟩⟩
    cases c
    cases hi
    cases hr
    rfl

theorem exists_candidatesOf_eq_ok_iff {r : Rule} {i : Nat} :
    (∃ cs, e.candidatesOf F r i = .ok cs) ↔
      ∃ sols, r.solutions e.forms F = .ok sols ∧ ∀ b ∈ sols, ∃ p, e.offers F r b = .ok p := by
  simp only [candidatesOf_eq_ok_iff]
  rw [exists_comm]
  refine exists_congr fun sols => ?_
  rw [exists_and_left, exists_filterMapM_eq_ok_iff]
  refine and_congr_right fun _ => forall₂_congr fun b _ => ?_
  refine ⟨fun ⟨o, h⟩ => ?_, fun ⟨p, h⟩ => ⟨_, bind_eq_ok_iff.2 ⟨p, h, rfl⟩⟩⟩
  have ⟨p, hp, _⟩ := bind_eq_ok_iff.1 h
  exact ⟨p, hp⟩

/-- The candidates are the rule instances whose conditions hold and that the engine offers. -/
theorem mem_of_candidates_eq_ok {cs : List Candidate} (h : e.candidates F = .ok cs)
    (c : Candidate) :
    c ∈ cs ↔ e.rules[c.ruleIndex]? = some c.rule ∧ ∃ sols, c.rule.solutions e.forms F = .ok sols ∧
      c.binding ∈ sols ∧ e.offers F c.rule c.binding = .ok true := by
  have ⟨perRule, hper, h⟩ := bind_eq_ok_iff.1 h
  cases h
  rw [List.mem_flatten]
  refine ⟨fun ⟨l, hl, hc⟩ => ?_, fun ⟨hr, hc⟩ => ?_⟩
  · have ⟨⟨r, i⟩, hri, hl⟩ := (mem_of_mapM_eq_ok hper l).1 hl
    obtain ⟨rfl, rfl, hc⟩ := (mem_of_candidatesOf_eq_ok hl c).1 hc
    exact ⟨List.mem_zipIdx_iff_getElem?.1 hri, hc⟩
  · have hri : (c.rule, c.ruleIndex) ∈ e.rules.zipIdx := List.mem_zipIdx_iff_getElem?.2 hr
    have ⟨l, hl⟩ := exists_mapM_eq_ok_iff.1 ⟨perRule, hper⟩ _ hri
    refine ⟨l, (mem_of_mapM_eq_ok hper l).2 ⟨_, hri, hl⟩, ?_⟩
    exact (mem_of_candidatesOf_eq_ok hl c).2 ⟨rfl, rfl, hc⟩

theorem exists_candidates_eq_ok_iff :
    (∃ cs, e.candidates F = .ok cs) ↔ ∀ r ∈ e.rules, ∃ sols, r.solutions e.forms F = .ok sols ∧
      ∀ b ∈ sols, ∃ p, e.offers F r b = .ok p := by
  -- all rules are enumerated, or the first that fails is the failure
  have hall : (∃ cs, e.candidates F = .ok cs) ↔
      ∃ l, (e.rules.zipIdx.mapM fun p => e.candidatesOf F p.1 p.2) = .ok l := by
    refine ⟨fun ⟨cs, h⟩ => ?_, fun ⟨l, h⟩ => ⟨l.flatten, bind_eq_ok_iff.2 ⟨l, h, rfl⟩⟩⟩
    have ⟨l, hl, _⟩ := bind_eq_ok_iff.1 h
    exact ⟨l, hl⟩
  rw [hall, exists_mapM_eq_ok_iff]
  refine ⟨fun h r hr => ?_, fun h p hp => ?_⟩
  · have ⟨i, hi⟩ := List.getElem?_of_mem hr
    exact exists_candidatesOf_eq_ok_iff.1 (h (r, i) (List.mem_zipIdx_iff_getElem?.2 hi))
  · refine exists_candidatesOf_eq_ok_iff.2 (h p.1 ?_)
    exact List.mem_of_getElem? (List.mem_zipIdx_iff_getElem?.1 hp)

theorem exists_of_candidates_eq_error {err : InferenceError} (h : e.candidates F = .error err) :
    ∃ r ∈ e.rules, r.solutions e.forms F = .error err ∨
      ∃ sols, r.solutions e.forms F = .ok sols ∧ ∃ b ∈ sols, e.offers F r b = .error err := by
  rcases bind_eq_error_iff.1 h with h | ⟨_, _, h⟩
  · have ⟨⟨r, i⟩, hri, h⟩ := exists_mem_of_mapM_eq_error h
    refine ⟨r, List.mem_of_getElem? (List.mem_zipIdx_iff_getElem?.1 hri), ?_⟩
    rcases bind_eq_error_iff.1 h with h | ⟨sols, hsols, h⟩
    · exact Or.inl h
    · have ⟨b, hb, h⟩ := exists_mem_of_filterMapM_eq_error h
      rcases bind_eq_error_iff.1 h with h | ⟨p, _, h⟩
      · exact Or.inr ⟨sols, hsols, b, hb, h⟩
      · cases h
  · cases h

theorem candidatesOf_eq_ok {e : Engine} {r : Rule} {sols : List Binding} {p : Binding → Bool}
    (hsols : r.solutions e.forms F = .ok sols) (hp : ∀ b ∈ sols, e.offers F r b = .ok (p b))
    (index : Nat) :
    e.candidatesOf F r index = .ok ((sols.filter p).map fun b => ⟨index, r, b⟩) := by
  have hoffer : ∀ b ∈ sols,
      (do return if ← e.offers F r b then some (⟨index, r, b⟩ : Candidate) else none)
        = Except.ok (if p b then some ⟨index, r, b⟩ else none) := by
    intro b hb
    rw [hp b hb]
    rfl
  rw [candidatesOf, hsols]
  refine (filterMapM_eq_ok_filterMap hoffer).trans ?_
  rw [← List.filterMap_eq_map', List.filterMap_filter]

/-- Outside the productive mode all solutions are offered. -/
theorem candidatesOf_eq_ok_map {r : Rule} {sols : List Binding} (he : e.productiveOnly = false)
    (hsols : r.solutions e.forms F = .ok sols) (index : Nat) :
    e.candidatesOf F r index = .ok (sols.map fun b => ⟨index, r, b⟩) := by
  have hoffers : ∀ b ∈ sols, e.offers F r b = .ok true := by
    intro b _
    unfold offers
    rw [he]
    rfl
  rw [candidatesOf_eq_ok hsols hoffers, List.filter_true]

/-- Engines whose candidates correspond rule by rule have corresponding candidates. -/
theorem candidates_eq_map {e e' : Engine} {g : Rule → Rule} {φ : List Candidate → List Candidate}
    (hrules : e'.rules = e.rules.map g)
    (hφ : ∀ perRule : List (List Candidate), φ perRule.flatten = (perRule.map φ).flatten)
    (h : ∀ r ∈ e.rules, ∀ i, e'.candidatesOf F (g r) i = (e.candidatesOf F r i).map φ) :
    e'.candidates F = (e.candidates F).map φ := by
  have hmap : (e'.rules.zipIdx.mapM fun p => e'.candidatesOf F p.1 p.2)
      = (e.rules.zipIdx.mapM fun p => e.candidatesOf F p.1 p.2).map (List.map φ) := by
    rw [hrules, List.zipIdx_map, List.mapM_map]
    refine mapM_eq_map_mapM fun p hp => ?_
    exact h p.1 (List.mem_of_getElem? (List.mem_zipIdx_iff_getElem?.1 hp)) p.2
  show ((e'.rules.zipIdx.mapM fun p => e'.candidatesOf F p.1 p.2) >>= fun perRule =>
    pure perRule.flatten) = _
  rw [hmap]
  show _ = Except.map φ ((e.rules.zipIdx.mapM fun p => e.candidatesOf F p.1 p.2) >>= fun perRule =>
    pure perRule.flatten)
  cases e.rules.zipIdx.mapM fun p => e.candidatesOf F p.1 p.2 with
  | error err => rfl
  | ok perRule => exact congrArg Except.ok (hφ perRule).symm

end Engine

end ForwardChaining
