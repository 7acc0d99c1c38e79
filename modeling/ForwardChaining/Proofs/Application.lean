import ForwardChaining.Proofs.Growth
import ForwardChaining.Proofs.Matching

/-!
# Application — rule instances, in any order and any number of times

Applying rule instances one after the other adds all their conclusions or fails (`Rule.applyAll_eq`): an
instance is looked at only under its own binding, and so it is applied or not whatever the others add. So
neither the order of the instances nor their repetition matters to the facts (`Rule.applyAll_interchange`).
What fails is the first conclusion variable that has no value.
-/

namespace ForwardChaining

/-! ## 1. The first variable without a value -/

namespace Binding

variable {b : Binding}

/-- The first of the given variables that has no value. -/
def firstUnbound (b : Binding) (vs : List Variable) : Option Variable :=
  vs.find? fun v => !b.isBound v

theorem firstUnbound_append (vs ws : List Variable) :
    b.firstUnbound (vs ++ ws) = (b.firstUnbound vs).or (b.firstUnbound ws) :=
  List.find?_append

theorem exists_firstUnbound_iff {vs : List Variable} :
    (∃ v, b.firstUnbound vs = some v) ↔ ∃ v ∈ vs, ¬ b.isBound v := by
  rw [← Option.isSome_iff_exists, firstUnbound, List.find?_isSome]
  simp only [Bool.not_eq_true', Bool.not_eq_true]

theorem mem_of_firstUnbound {vs : List Variable} {v : Variable} (h : b.firstUnbound vs = some v) :
    v ∈ vs ∧ ¬ b.isBound v := by
  have hunbound : (!b.isBound v) = true := List.find?_some (p := fun v => !b.isBound v) h
  rw [Bool.not_eq_true', ← Bool.not_eq_true] at hunbound
  exact ⟨List.mem_of_find?_eq_some h, hunbound⟩

theorem firstUnbound_singleton_iff {v w : Variable} :
    b.firstUnbound [v] = some w ↔ v = w ∧ ¬ b.isBound w := by
  rw [firstUnbound, List.find?_singleton, Option.ite_none_right_eq_some, Option.some.injEq,
    Bool.not_eq_true', ← Bool.not_eq_true]
  constructor
  · rintro ⟨hv, rfl⟩
    exact ⟨rfl, hv⟩
  · rintro ⟨rfl, hv⟩
    exact ⟨hv, rfl⟩

/-- Where each computation fails at the first variable without a value, so do all of them in turn. -/
theorem mapM_eq_error_iff_firstUnbound {α β : Type} {f : α → Except UnboundVariable β}
    {vars : α → List Variable}
    (hf : ∀ x e, f x = .error e ↔ b.firstUnbound (vars x) = some e.var) (l : List α)
    (e : UnboundVariable) : l.mapM f = .error e ↔ b.firstUnbound (l.flatMap vars) = some e.var := by
  induction l with
  | nil => exact iff_of_false (fun h => by cases h) (fun h => by cases h)
  | cons x l ih =>
    rw [List.mapM_cons, List.flatMap_cons, firstUnbound_append, Option.or_eq_some_iff, ← hf, ← ih,
      bind_eq_error_iff]
    apply or_congr_right
    -- the others are looked at where the first has a result
    cases hx : f x with
    | error e' =>
      have hnone : b.firstUnbound (vars x) ≠ none := by
        rw [(hf x e').1 hx]
        exact Option.some_ne_none e'.var
      exact iff_of_false (fun ⟨_, h, _⟩ => by cases h) (fun h => hnone h.1)
    | ok y =>
      have hnone : b.firstUnbound (vars x) = none := by
        rw [Option.eq_none_iff_forall_ne_some]
        intro v hv
        cases hx.symm.trans ((hf x ⟨v⟩).2 hv)
      rw [and_iff_right hnone]
      constructor
      · rintro ⟨_, _, h⟩
        rcases bind_eq_error_iff.1 h with h | ⟨_, _, h⟩
        · exact h
        · cases h
      · intro h
        exact ⟨y, rfl, bind_eq_error_iff.2 (Or.inl h)⟩

end Binding

theorem Tuple.ground_eq_error_iff {b : Binding} (t : Tuple) (e : UnboundVariable) :
    t.ground b = .error e ↔ b.firstUnbound t.vars = some e.var := by
  have hvars : t.vars = t.flatMap fun u => u.var?.toList := List.filterMap_eq_flatMap_toList _ t
  rw [hvars]
  apply Binding.mapM_eq_error_iff_firstUnbound
  intro u e
  rw [Term.ground_eq_error_iff]
  cases u with
  | const a => exact iff_of_false (fun h => by cases h.1) (fun h => by cases h)
  | var v =>
    show _ ↔ b.firstUnbound [v] = some e.var
    rw [Term.var.injEq, Binding.firstUnbound_singleton_iff]

namespace Rule

/-- The variables of the conclusions, from left to right, as often as they occur. -/
def conclusionVars (r : Rule) : List Variable :=
  r.conclusions.flatMap Tuple.vars

variable {r : Rule} {b : Binding} {F G : FactBase} {e : UnboundVariable}

theorem instances_eq_error_iff :
    r.instances b = .error e ↔ b.firstUnbound r.conclusionVars = some e.var :=
  Binding.mapM_eq_error_iff_firstUnbound Tuple.ground_eq_error_iff r.conclusions e

theorem exists_instances_eq_error_iff :
    (∃ e, r.instances b = .error e) ↔ ∃ v ∈ r.conclusionVars, ¬ b.isBound v := by
  rw [← Binding.exists_firstUnbound_iff]
  constructor
  · rintro ⟨e, he⟩
    exact ⟨e.var, instances_eq_error_iff.1 he⟩
  · rintro ⟨v, hv⟩
    exact ⟨⟨v⟩, instances_eq_error_iff.2 hv⟩

/-! ## 2. One instance -/

theorem apply_eq_map (r : Rule) (b : Binding) (F : FactBase) :
    r.apply b F = (r.instances b).map F.union := by
  unfold apply
  cases r.instances b with
  | error e => rfl
  | ok fs => rfl

/-- Whether an instance can be applied, and which variable is missing, does not depend on the facts. -/
theorem apply_eq_error_iff :
    r.apply b F = .error e ↔ b.firstUnbound r.conclusionVars = some e.var := by
  rw [apply_eq_map, map_eq_error_iff, instances_eq_error_iff]

/-! ## 3. Many instances -/

/-- The facts after some instances have been applied, one after the other. -/
def applyAll (l : List (Rule × Binding)) (F : FactBase) : Except UnboundVariable FactBase :=
  l.foldlM (fun F p => p.1.apply p.2 F) F

variable {l l' front : List (Rule × Binding)}

theorem applyAll_cons (p : Rule × Binding) (l : List (Rule × Binding)) (F : FactBase) :
    applyAll (p :: l) F = p.1.apply p.2 F >>= applyAll l :=
  List.foldlM_cons

/-- All conclusions are grounded before the facts matter, and then they are added together. -/
theorem applyAll_eq (l : List (Rule × Binding)) (F : FactBase) :
    applyAll l F = (l.mapM fun p : Rule × Binding => p.1.instances p.2).map fun fss => F.union fss.flatten := by
  induction l generalizing F with
  | nil => rfl
  | cons p l ih =>
    rw [applyAll_cons, apply_eq_map, List.mapM_cons]
    cases p.1.instances p.2 with
    | error e => rfl
    | ok fs =>
      show applyAll l (F.union fs) = _
      rw [ih]
      cases l.mapM fun p : Rule × Binding => p.1.instances p.2 with
      | error e => rfl
      | ok fss =>
        show Except.ok ((F.union fs).union fss.flatten) = .ok (F.union (fs ++ fss.flatten))
        rw [FactBase.union_append]

theorem applyAll_eq_ok_iff :
    applyAll l F = .ok G ↔
      ∃ fss, (l.mapM fun p : Rule × Binding => p.1.instances p.2) = .ok fss ∧ G = F.union fss.flatten := by
  rw [applyAll_eq, map_eq_ok_iff]
  simp only [eq_comm]

theorem exists_applyAll_eq_error_iff :
    (∃ e, applyAll l F = .error e) ↔ ∃ p ∈ l, ∃ v ∈ p.1.conclusionVars, ¬ p.2.isBound v := by
  simp only [applyAll_eq, map_eq_error_iff, exists_mapM_eq_error_iff, exists_instances_eq_error_iff]

/-- The first instance that lacks a value is the failure. Those before it could be applied. -/
theorem applyAll_eq_error_iff :
    applyAll l F = .error e ↔ ∃ front p rest, l = front ++ p :: rest ∧
      (∃ G, applyAll front F = .ok G) ∧ p.2.firstUnbound p.1.conclusionVars = some e.var := by
  have hfront (front : List (Rule × Binding)) : (∃ G, applyAll front F = .ok G) ↔
      ∀ p ∈ front, ∃ fs, p.1.instances p.2 = .ok fs := by
    rw [← exists_mapM_eq_ok_iff]
    simp only [applyAll_eq_ok_iff]
    constructor
    · rintro ⟨_, fss, hfss, _⟩
      exact ⟨fss, hfss⟩
    · rintro ⟨fss, hfss⟩
      exact ⟨_, fss, hfss, rfl⟩
  rw [applyAll_eq, map_eq_error_iff, mapM_eq_error_iff]
  simp only [hfront, instances_eq_error_iff]

/-- What the instances add to the facts: all their conclusions, and nothing else. -/
theorem mem_of_applyAll_eq_ok (h : applyAll l F = .ok G) (f : Fact) :
    f ∈ G ↔ f ∈ F ∨ ∃ p ∈ l, ∃ t ∈ p.1.conclusions, t.ground p.2 = .ok f := by
  obtain ⟨fss, hfss, rfl⟩ := applyAll_eq_ok_iff.1 h
  rw [FactBase.mem_union, List.mem_flatten]
  apply or_congr_right
  simp only [mem_of_mapM_eq_ok hfss]
  constructor
  · rintro ⟨fs, ⟨p, hp, hfs⟩, hf⟩
    exact ⟨p, hp, (mem_of_instances_eq_ok hfs f).1 hf⟩
  · rintro ⟨p, hp, ht⟩
    obtain ⟨fs, hfs⟩ := exists_mapM_eq_ok_iff.1 ⟨fss, hfss⟩ p hp
    exact ⟨fs, ⟨p, hp, hfs⟩, (mem_of_instances_eq_ok hfs f).2 ht⟩

theorem exists_ground_of_applyAll_eq_ok (h : applyAll l F = .ok G) {p : Rule × Binding} (hp : p ∈ l)
    {t : Tuple} (ht : t ∈ p.1.conclusions) : ∃ f ∈ G, t.ground p.2 = .ok f := by
  obtain ⟨fss, hfss, _⟩ := applyAll_eq_ok_iff.1 h
  have hinstances := exists_mapM_eq_ok_iff.1 ⟨fss, hfss⟩ p hp
  obtain ⟨f, hf⟩ := exists_instances_eq_ok_iff.1 hinstances t ht
  exact ⟨f, (mem_of_applyAll_eq_ok h f).2 (Or.inr ⟨p, hp, t, ht, hf⟩), hf⟩

theorem isPrefix_of_applyAll_eq_ok (h : applyAll l F = .ok G) : F.facts <+: G.facts := by
  obtain ⟨fss, _, rfl⟩ := applyAll_eq_ok_iff.1 h
  rw [FactBase.facts_union]
  exact List.prefix_append _ _

/-- Over facts that have all their conclusions, instances add nothing. -/
theorem applyAll_of_known
    (h : ∀ p ∈ l, ∀ t ∈ p.1.conclusions, ∃ f ∈ G, t.ground p.2 = .ok f) :
    applyAll l G = .ok G := by
  have hinstances : ∀ p ∈ l, ∃ fs, p.1.instances p.2 = .ok fs := by
    intro p hp
    apply exists_instances_eq_ok_iff.2
    intro t ht
    obtain ⟨f, _, hf⟩ := h p hp t ht
    exact ⟨f, hf⟩
  obtain ⟨fss, hfss⟩ := exists_mapM_eq_ok_iff.2 hinstances
  rw [applyAll_eq_ok_iff]
  refine ⟨fss, hfss, (FactBase.union_of_subset fun g hg => ?_).symm⟩
  obtain ⟨fs, hfs, hg⟩ := List.mem_flatten.1 hg
  obtain ⟨p, hp, hfs⟩ := (mem_of_mapM_eq_ok hfss fs).1 hfs
  obtain ⟨t, ht, hgt⟩ := (mem_of_instances_eq_ok hfs g).1 hg
  obtain ⟨f, hf, hft⟩ := h p hp t ht
  cases hgt.symm.trans hft
  exact hf

/-- Instances can be applied in every order and any number of times, or in none: they cannot exactly if
some conclusion of one of them has a variable without a value. What they add is the same each time, all
their conclusions and nothing else, and applied again they add nothing. Where they cannot be applied, the
first instance that lacks a value is the failure, and its first variable without one is reported. -/
theorem applyAll_interchange (h : ∀ p, p ∈ l ↔ p ∈ l') (F : FactBase) :
    ((∃ e, applyAll l F = .error e) ↔
        ∃ p ∈ l, ∃ t ∈ p.1.conclusions, ∃ v ∈ t.vars, ¬ p.2.isBound v) ∧
      ((∃ e, applyAll l F = .error e) ↔ ∃ e, applyAll l' F = .error e) ∧
      (∀ G, applyAll l F = .ok G →
        F.facts <+: G.facts ∧
        (∀ f, f ∈ G ↔ f ∈ F ∨ ∃ p ∈ l, ∃ t ∈ p.1.conclusions, t.ground p.2 = .ok f) ∧
        applyAll l' G = .ok G ∧ ∀ G', applyAll l' F = .ok G' → G' ≈ G) ∧
      (∀ e, applyAll l F = .error e ↔ ∃ front p rest, l = front ++ p :: rest ∧
        (∃ G, applyAll front F = .ok G) ∧ p.2.firstUnbound p.1.conclusionVars = some e.var) ∧
      ∀ r b, applyAll [(r, b)] F = r.apply b F ∧
        ∀ e, r.apply b F = .error e ↔ b.firstUnbound r.conclusionVars = some e.var := by
  have hvars (r : Rule) (b : Binding) : (∃ v ∈ r.conclusionVars, ¬ b.isBound v) ↔
      ∃ t ∈ r.conclusions, ∃ v ∈ t.vars, ¬ b.isBound v := by
    simp only [conclusionVars, List.mem_flatMap]
    tauto
  refine ⟨?_, ?_, fun G hG => ⟨isPrefix_of_applyAll_eq_ok hG, mem_of_applyAll_eq_ok hG, ?_, ?_⟩,
    fun e => applyAll_eq_error_iff, fun r b => ⟨?_, fun e => apply_eq_error_iff⟩⟩
  · simp only [exists_applyAll_eq_error_iff, hvars]
  · simp only [exists_applyAll_eq_error_iff, h]
  · apply applyAll_of_known
    intro p hp t ht
    exact exists_ground_of_applyAll_eq_ok hG ((h p).2 hp) ht
  · intro G' hG'
    rw [FactBase.equiv_iff]
    intro f
    rw [mem_of_applyAll_eq_ok hG, mem_of_applyAll_eq_ok hG']
    simp only [h]
  · rw [applyAll_cons]
    cases r.apply b F with
    | error e => rfl
    | ok G => rfl

/-- `(knows ?0 ?1)`, `(knows ?1 ?0)` and `(person ?0)`, for two that meet. -/
def meeting (knows person : Atom) : Rule :=
  let x : Term := .var ⟨0⟩
  let y : Term := .var ⟨1⟩
  { conclusions := [[.const knows, x, y], [.const knows, y, x], [.const person, x]] }

/-- Two meetings, the second one twice and first, or in turn: the facts come in another order and are the
same. A meeting of one alone cannot be applied, for `?1` has no value. -/
theorem applyAll_interchange_meetings :
    let knows : Atom := .symbol ⟨2⟩
    let person : Atom := .symbol ⟨3⟩
    let r := meeting knows person
    let there : Binding := ⟨⟨[(0, .integer 1), (1, .integer 2)], by decide⟩⟩
    let back : Binding := ⟨⟨[(0, .integer 2), (1, .integer 1)], by decide⟩⟩
    let alone : Binding := ⟨⟨[(0, .integer 3)], by decide⟩⟩
    let l := [(r, there), (r, back)]
    let l' := [(r, back), (r, there), (r, back)]
    let F : FactBase := .ofList [[person, .integer 1]]
    let G : FactBase := .ofList [[person, .integer 1], [knows, .integer 1, .integer 2],
      [knows, .integer 2, .integer 1], [person, .integer 2]]
    let G' : FactBase := .ofList [[person, .integer 1], [knows, .integer 2, .integer 1],
      [knows, .integer 1, .integer 2], [person, .integer 2]]
    (∀ p, p ∈ l ↔ p ∈ l') ∧ applyAll l F = .ok G ∧ applyAll l' F = .ok G' ∧ G ≠ G' ∧ G' ≈ G ∧
      applyAll l' G = .ok G ∧ r.apply alone F = .error ⟨⟨1⟩⟩ := by
  intro knows person r there back alone l l' F G G'
  have hmem : ∀ p, p ∈ l ↔ p ∈ l' := by
    intro p
    simp only [l, l', List.mem_cons, List.not_mem_nil, or_false]
    tauto
  have hG : applyAll l F = .ok G := by decide
  have hG' : applyAll l' F = .ok G' := by decide
  obtain ⟨_, _, hadded, _, hone⟩ := applyAll_interchange hmem F
  obtain ⟨_, _, hagain, hsame⟩ := hadded G hG
  exact ⟨hmem, hG, hG', by decide, hsame G' hG', hagain, ((hone r alone).2 _).2 (by decide)⟩

end Rule

end ForwardChaining
