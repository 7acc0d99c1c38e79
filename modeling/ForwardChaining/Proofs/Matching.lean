import ForwardChaining.FactBase
import ForwardChaining.Proofs.Failure

/-!
# Matching — grounding and matching are inverse to each other

A match of a tuple against a fact is the one extension of the start binding that binds the variables
of the tuple besides and grounds the tuple to the fact (`Tuple.matchFact_eq_ok_some_iff`), and it is the
least of all bindings beyond the start that do so (`match_least`). A query therefore collects exactly the
extensions under which the tuple is a known fact, and it never fails.
-/

namespace ForwardChaining

/-! ## 1. Grounding -/

theorem Term.ground_eq_ok_iff {b : Binding} {t : Term} {a : Atom} :
    t.ground b = .ok a ↔ t = .const a ∨ ∃ v, t = .var v ∧ b.get? v = some a := by
  cases t with
  | const c => simp only [ground, Except.ok.injEq, const.injEq, reduceCtorEq, false_and, exists_false,
      or_false]
  | var v =>
    simp only [ground, reduceCtorEq, var.injEq, exists_eq_left', false_or]
    cases b.get? v with
    | none => simp only [reduceCtorEq]
    | some a' => simp only [Except.ok.injEq, Option.some.injEq]

theorem Term.ground_eq_error_iff {b : Binding} {t : Term} {e : UnboundVariable} :
    t.ground b = .error e ↔ t = .var e.var ∧ ¬ b.isBound e.var := by
  cases t with
  | const c => simp only [ground, reduceCtorEq, false_and]
  | var v =>
    simp only [ground, var.injEq, Binding.isBound]
    cases h : b.get? v with
    | none =>
      refine ⟨fun he => ?_, fun ⟨hv, _⟩ => ?_⟩
      · cases he
        exact ⟨rfl, by rw [h]; exact Bool.false_ne_true⟩
      · rw [hv]
    | some a =>
      refine ⟨fun he => (nomatch he), fun ⟨hv, hb⟩ => ?_⟩
      rw [← hv, h] at hb
      exact absurd rfl hb

theorem Tuple.ground_cons_eq_ok_iff {b : Binding} {t : Term} {ts : Tuple} {f : Fact} :
    Tuple.ground b (t :: ts) = .ok f ↔
      ∃ a g, t.ground b = .ok a ∧ Tuple.ground b ts = .ok g ∧ f = a :: g := by
  simp only [ground, mapM_eq_ok_iff, List.forall₂_cons_left_iff]

theorem Tuple.vars_cons (t : Term) (ts : Tuple) :
    Tuple.vars (t :: ts) = t.var?.toList ++ Tuple.vars ts := by
  cases t with
  | const a => rfl
  | var v => rfl

theorem Tuple.mem_vars_iff {t : Tuple} {v : Variable} : v ∈ t.vars ↔ Term.var v ∈ t := by
  rw [vars, List.mem_filterMap]
  refine ⟨fun ⟨u, hu, hv⟩ => ?_, fun h => ⟨_, h, rfl⟩⟩
  cases u with
  | const a => cases hv
  | var w =>
    cases hv
    exact hu

theorem Term.ground_of_subset {b c : Binding} (h : b ⊆ c) {t : Term} {a : Atom}
    (ha : t.ground b = .ok a) : t.ground c = .ok a := by
  rcases ground_eq_ok_iff.1 ha with ht | ⟨v, hv, hva⟩
  · exact ground_eq_ok_iff.2 (Or.inl ht)
  · exact ground_eq_ok_iff.2 (Or.inr ⟨v, hv, Binding.get?_of_subset h hva⟩)

theorem Tuple.ground_of_subset {b c : Binding} (h : b ⊆ c) {t : Tuple} {f : Fact}
    (hf : t.ground b = .ok f) : t.ground c = .ok f :=
  mapM_eq_ok_iff.2 ((mapM_eq_ok_iff.1 hf).imp fun _ _ hu => Term.ground_of_subset h hu)

theorem Tuple.exists_ground_eq_ok_iff {b : Binding} {t : Tuple} :
    (∃ f, t.ground b = .ok f) ↔ ∀ v ∈ t.vars, b.isBound v := by
  rw [ground, exists_mapM_eq_ok_iff]
  refine ⟨fun h v hv => ?_, fun h u hu => ?_⟩
  · have ⟨a, ha⟩ := h _ (mem_vars_iff.1 hv)
    rcases Term.ground_eq_ok_iff.1 ha with hc | ⟨w, hw, hwa⟩
    · cases hc
    · cases hw
      exact (Binding.isBound_iff b v).2 ⟨a, hwa⟩
  · cases u with
    | const a => exact ⟨a, rfl⟩
    | var v =>
      have ⟨a, ha⟩ := (Binding.isBound_iff b v).1 (h v (mem_vars_iff.2 hu))
      exact ⟨a, Term.ground_eq_ok_iff.2 (Or.inr ⟨v, rfl, ha⟩)⟩

theorem Tuple.unbound_of_ground_eq_error {b : Binding} {t : Tuple} {e : UnboundVariable}
    (h : t.ground b = .error e) : e.var ∈ t.vars ∧ ¬ b.isBound e.var := by
  have ⟨u, hu, he⟩ := exists_mem_of_mapM_eq_error h
  obtain ⟨rfl, hb⟩ := Term.ground_eq_error_iff.1 he
  exact ⟨mem_vars_iff.2 hu, hb⟩

/-- The values of the variables of a tuple stand in the fact that it grounds to. -/
theorem Tuple.exists_mem_of_ground_eq_ok {b : Binding} {t : Tuple} {f : Fact}
    (h : t.ground b = .ok f) {v : Variable} (hv : v ∈ t.vars) : ∃ a ∈ f, b.get? v = some a := by
  have hb : b.isBound v := exists_ground_eq_ok_iff.1 ⟨f, h⟩ v hv
  have ⟨a, ha⟩ := (Binding.isBound_iff b v).1 hb
  refine ⟨a, (mem_of_mapM_eq_ok h a).2 ⟨_, mem_vars_iff.1 hv, ?_⟩, ha⟩
  exact Term.ground_eq_ok_iff.2 (Or.inr ⟨v, rfl, ha⟩)

/-! ## 2. Matching -/

/-- What it is to extend a binding over some variables: nothing is lost, and the variables with a
value are those of the start and the given ones. -/
def Binding.Extends (b : Binding) (vs : List Variable) (c : Binding) : Prop :=
  b ⊆ c ∧ ∀ v, c.isBound v ↔ b.isBound v ∨ v ∈ vs

theorem Binding.Extends.refl (b : Binding) : b.Extends [] b :=
  ⟨subset_refl b, fun v => by simp only [List.not_mem_nil, or_false]⟩

theorem Binding.Extends.trans {b c d : Binding} {vs ws : List Variable} (h : b.Extends vs c)
    (h' : c.Extends ws d) : b.Extends (vs ++ ws) d :=
  ⟨subset_trans h.1 h'.1, fun v => by rw [h'.2, h.2, List.mem_append, or_assoc]⟩

theorem Binding.exists_extend {b : Binding} {v : Variable} (a : Atom) (h : b.get? v = none) :
    ∃ c, b.extend v a = .ok c ∧ b.Extends [v] c ∧ c.get? v = some a := by
  have hc : b.extend v a = .ok ⟨b.slots.insert v.ordinal a⟩ := by
    simp only [extend, h]
  refine ⟨_, hc, ⟨(subset_iff b _).2 fun w x hw => ?_, fun w => ?_⟩, ?_⟩
  · have hne : w ≠ v := fun he => by rw [he, h] at hw; cases hw
    rw [get?_extend hc, if_neg hne, hw]
  · rw [isBound, get?_extend hc, List.mem_singleton]
    by_cases hw : w = v
    · rw [if_pos hw]
      exact ⟨fun _ => Or.inr hw, fun _ => rfl⟩
    · rw [if_neg hw]
      exact ⟨Or.inl, fun h => h.resolve_right hw⟩
  · rw [get?_extend hc, if_pos rfl]

theorem Term.matchAtom_cases {t : Term} {a : Atom} {b c : Binding}
    (h : t.matchAtom a b = .ok (some c)) :
    (t = .const a ∧ c = b) ∨ ∃ v, t = .var v ∧
      ((b.get? v = some a ∧ c = b) ∨ (b.get? v = none ∧ b.extend v a = .ok c)) := by
  cases t with
  | const x =>
    by_cases hx : x = a
    · rw [matchAtom, if_pos hx] at h
      cases h
      exact Or.inl ⟨congrArg const hx, rfl⟩
    · rw [matchAtom, if_neg hx] at h
      cases h
  | var v =>
    refine Or.inr ⟨v, rfl, ?_⟩
    cases hv : b.get? v with
    | some old =>
      by_cases ho : old = a
      · simp only [matchAtom, hv, if_pos ho] at h
        cases h
        exact Or.inl ⟨congrArg some ho, rfl⟩
      · simp only [matchAtom, hv, if_neg ho] at h
        cases h
    | none =>
      have ⟨d, hd, _⟩ := Binding.exists_extend a hv
      simp only [matchAtom, hv, hd, Except.map] at h
      cases h
      exact Or.inr ⟨rfl, hd⟩

theorem Term.exists_matchAtom_eq_ok (t : Term) (a : Atom) (b : Binding) :
    ∃ o, t.matchAtom a b = .ok o := by
  cases t with
  | const x => exact ⟨_, rfl⟩
  | var v =>
    cases hv : b.get? v with
    | some old => exact ⟨if old = a then some b else none, by simp only [matchAtom, hv]⟩
    | none =>
      have ⟨c, hc, _⟩ := Binding.exists_extend a hv
      exact ⟨some c, by simp only [matchAtom, hv, hc, Except.map]⟩

theorem Term.matchAtom_sound {t : Term} {a : Atom} {b c : Binding}
    (h : t.matchAtom a b = .ok (some c)) : b.Extends t.var?.toList c ∧ t.ground c = .ok a := by
  rcases matchAtom_cases h with ⟨rfl, rfl⟩ | ⟨v, rfl, ⟨hv, rfl⟩ | ⟨hv, hc⟩⟩
  · exact ⟨Binding.Extends.refl c, rfl⟩
  · refine ⟨⟨Binding.subset_refl c, fun w => ⟨Or.inl, fun hw => hw.elim id fun hw => ?_⟩⟩,
      ground_eq_ok_iff.2 (Or.inr ⟨v, rfl, hv⟩)⟩
    rw [List.mem_singleton.1 hw]
    exact (Binding.isBound_iff c v).2 ⟨a, hv⟩
  · have ⟨d, hd, hext, hda⟩ := Binding.exists_extend a hv
    cases hc.symm.trans hd
    exact ⟨hext, ground_eq_ok_iff.2 (Or.inr ⟨v, rfl, hda⟩)⟩

theorem Term.matchAtom_complete {t : Term} {a : Atom} {b d : Binding} (hd : b ⊆ d)
    (hg : t.ground d = .ok a) : ∃ c, t.matchAtom a b = .ok (some c) ∧ c ⊆ d := by
  rcases ground_eq_ok_iff.1 hg with rfl | ⟨v, rfl, hva⟩
  · exact ⟨b, by rw [matchAtom, if_pos rfl], hd⟩
  · cases hv : b.get? v with
    | some old =>
      have ho : old = a := Option.some.inj ((Binding.get?_of_subset hd hv).symm.trans hva)
      exact ⟨b, by simp only [matchAtom, hv, if_pos ho], hd⟩
    | none =>
      have ⟨c, hc, _⟩ := Binding.exists_extend a hv
      refine ⟨c, by simp only [matchAtom, hv, hc, Except.map], ?_⟩
      refine (Binding.subset_iff c d).2 fun w x hw => ?_
      rw [Binding.get?_extend hc] at hw
      by_cases he : w = v
      · rw [if_pos he] at hw
        rw [he, hva, hw]
      · rw [if_neg he] at hw
        exact Binding.get?_of_subset hd hw

theorem Tuple.matchFact_cons {t : Term} {ts : Tuple} {a : Atom} {f : Fact} {b : Binding}
    {o : Option Binding} (h : t.matchAtom a b = .ok o) :
    Tuple.matchFact (t :: ts) (a :: f) b
      = match o with
        | some c => Tuple.matchFact ts f c
        | none => .ok none := by
  simp only [matchFact, h]
  cases o with
  | none => rfl
  | some c => rfl

theorem Tuple.exists_matchFact_eq_ok (t : Tuple) (f : Fact) (b : Binding) :
    ∃ o, t.matchFact f b = .ok o := by
  induction t generalizing f b with
  | nil =>
    cases f with
    | nil => exact ⟨_, rfl⟩
    | cons a f => exact ⟨_, rfl⟩
  | cons t ts ih =>
    cases f with
    | nil => exact ⟨_, rfl⟩
    | cons a f =>
      have ⟨o, ho⟩ := Term.exists_matchAtom_eq_ok t a b
      rw [matchFact_cons ho]
      cases o with
      | none => exact ⟨_, rfl⟩
      | some c => exact ih f c

theorem Tuple.matchFact_sound {t : Tuple} {f : Fact} {b c : Binding}
    (h : t.matchFact f b = .ok (some c)) : b.Extends t.vars c ∧ t.ground c = .ok f := by
  -- what the first term binds is kept by the others, so the fact is read off the last binding
  induction t generalizing f b with
  | nil =>
    cases f with
    | nil =>
      cases h
      exact ⟨Binding.Extends.refl c, rfl⟩
    | cons a f => cases h
  | cons t ts ih =>
    cases f with
    | nil => cases h
    | cons a f =>
      have ⟨o, ho⟩ := Term.exists_matchAtom_eq_ok t a b
      rw [matchFact_cons ho] at h
      cases o with
      | none => cases h
      | some c₁ =>
        have ⟨hext, hga⟩ := Term.matchAtom_sound ho
        have ⟨hext', hgf⟩ := ih h
        rw [vars_cons]
        refine ⟨hext.trans hext', ground_cons_eq_ok_iff.2 ⟨a, f, ?_, hgf, rfl⟩⟩
        exact Term.ground_of_subset hext'.1 hga

theorem Tuple.matchFact_complete {t : Tuple} {f : Fact} {b d : Binding} (hd : b ⊆ d)
    (hg : t.ground d = .ok f) : ∃ c, t.matchFact f b = .ok (some c) ∧ c ⊆ d := by
  -- by induction on the tuple: every binding on the way is part of the larger one
  induction t generalizing f b with
  | nil =>
    cases hg
    exact ⟨b, rfl, hd⟩
  | cons t ts ih =>
    obtain ⟨a, g, ha, hts, rfl⟩ := ground_cons_eq_ok_iff.1 hg
    have ⟨c₁, hm, hc₁⟩ := Term.matchAtom_complete hd ha
    have ⟨c, hc, hcd⟩ := ih hc₁ hts
    exact ⟨c, (matchFact_cons hm).trans hc, hcd⟩

/-- A match is the one extension over the variables of the tuple that grounds it to the fact. -/
theorem Tuple.matchFact_eq_ok_some_iff {t : Tuple} {f : Fact} {b c : Binding} :
    t.matchFact f b = .ok (some c) ↔ b.Extends t.vars c ∧ t.ground c = .ok f := by
  refine ⟨matchFact_sound, fun ⟨hext, hg⟩ => ?_⟩
  -- there is a match inside `c`, and it binds as many variables as `c` does
  have ⟨c', hm, hsub⟩ := matchFact_complete hext.1 hg
  have hdom : ∀ v, c.isBound v → c'.isBound v := fun v hv =>
    ((matchFact_sound hm).1.2 v).2 ((hext.2 v).1 hv)
  rw [← Binding.eq_of_subset hsub hdom]
  exact hm

/-! ## 3. Least matches -/

/-- Whether `o` answers with the least of the bindings beyond `b` that fit, if there are any: it fits, is
part of all that do, and has values for the variables of `b` and for those of the list. -/
def Binding.IsLeastFit (b : Binding) (vs : List Variable) (Fits : Binding → Prop)
    (o : Option Binding) : Prop :=
  (o.isSome ↔ ∃ c, b ⊆ c ∧ Fits c) ∧
    ∀ m, o = some m → Fits m ∧ b ⊆ m ∧ (∀ v, m.isBound v ↔ b.isBound v ∨ v ∈ vs) ∧
      ∀ c, b ⊆ c → Fits c → m ⊆ c

theorem Binding.isLeastFit_of {b : Binding} {vs : List Variable} {Fits : Binding → Prop}
    {o : Option Binding} (hsound : ∀ m, o = some m → b.Extends vs m ∧ Fits m)
    (hcomplete : ∀ c, b ⊆ c → Fits c → ∃ m, o = some m ∧ m ⊆ c) : b.IsLeastFit vs Fits o := by
  refine ⟨⟨fun h => ?_, fun ⟨c, hbc, hc⟩ => ?_⟩, fun m hm => ?_⟩
  · have ⟨m, hm⟩ := Option.isSome_iff_exists.1 h
    have ⟨hext, hfits⟩ := hsound m hm
    exact ⟨m, hext.1, hfits⟩
  · have ⟨m, hm, _⟩ := hcomplete c hbc hc
    rw [hm]
    rfl
  · have ⟨hext, hfits⟩ := hsound m hm
    refine ⟨hfits, hext.1, hext.2, fun c hbc hc => ?_⟩
    have ⟨m', hm', hsub⟩ := hcomplete c hbc hc
    cases hm.symm.trans hm'
    exact hsub

/-- Matching a tuple against a fact, or a term against an atom, never fails with an error. It finds the
least binding beyond the given one that grounds the one to the other, if there is any that does. -/
theorem match_least (b : Binding) :
    (∀ (t : Tuple) (f : Fact), ∃ o, t.matchFact f b = .ok o ∧
      b.IsLeastFit t.vars (fun c => t.ground c = .ok f) o) ∧
    ∀ (t : Term) (a : Atom), ∃ o, t.matchAtom a b = .ok o ∧
      b.IsLeastFit t.var?.toList (fun c => t.ground c = .ok a) o := by
  refine ⟨fun t f => ?_, fun t a => ?_⟩
  · have ⟨o, ho⟩ := Tuple.exists_matchFact_eq_ok t f b
    refine ⟨o, ho, Binding.isLeastFit_of (fun m hm => ?_) fun c hbc hc => ?_⟩
    · rw [hm] at ho
      exact Tuple.matchFact_sound ho
    · have ⟨m, hm, hsub⟩ := Tuple.matchFact_complete hbc hc
      exact ⟨m, Except.ok.inj (ho.symm.trans hm), hsub⟩
  · have ⟨o, ho⟩ := Term.exists_matchAtom_eq_ok t a b
    refine ⟨o, ho, Binding.isLeastFit_of (fun m hm => ?_) fun c hbc hc => ?_⟩
    · rw [hm] at ho
      exact Term.matchAtom_sound ho
    · have ⟨m, hm, hsub⟩ := Term.matchAtom_complete hbc hc
      exact ⟨m, Except.ok.inj (ho.symm.trans hm), hsub⟩

/-- `(edge ?0 ?1 ?0)` matches an edge from one to one, and whatever else a binding does that makes it this
edge, it gives `?0` and `?1` these values. An edge from one to two is none that it could be made. -/
theorem match_least_loop :
    let edge : Atom := .symbol ⟨2⟩
    let t : Tuple := [.const edge, .var ⟨0⟩, .var ⟨1⟩, .var ⟨0⟩]
    let loop : Fact := [edge, .integer 1, .integer 5, .integer 1]
    let way : Fact := [edge, .integer 1, .integer 5, .integer 2]
    let b : Binding := ⟨⟨[(2, .integer 7)], by decide⟩⟩
    let m : Binding := ⟨⟨[(0, .integer 1), (1, .integer 5), (2, .integer 7)], by decide⟩⟩
    (t.matchFact loop b = .ok (some m) ∧ ∀ c, b ⊆ c → t.ground c = .ok loop → m ⊆ c) ∧
      t.matchFact way b = .ok none ∧ ¬ ∃ c, b ⊆ c ∧ t.ground c = .ok way := by
  intro edge t loop way b m
  have hloop : t.matchFact loop b = .ok (some m) := by rfl
  have hway : t.matchFact way b = .ok none := by rfl
  obtain ⟨o, ho, _, hleast⟩ := (match_least b).1 t loop
  obtain ⟨o', ho', hsome, _⟩ := (match_least b).1 t way
  cases hloop.symm.trans ho
  cases hway.symm.trans ho'
  exact ⟨⟨hloop, (hleast m rfl).2.2.2⟩, hway, fun h => nomatch hsome.2 h⟩

/-! ## 4. Queries -/

namespace FactBase

theorem exists_query_eq_ok (F : FactBase) (t : Tuple) (b : Binding) :
    ∃ bs, F.query t b = .ok bs :=
  exists_filterMapM_eq_ok_iff.2 fun f _ => Tuple.exists_matchFact_eq_ok t f b

/-- A query answers with the extensions under which the tuple is a known fact. -/
theorem mem_of_query_eq_ok {F : FactBase} {t : Tuple} {b : Binding} {bs : List Binding}
    (h : F.query t b = .ok bs) (c : Binding) :
    c ∈ bs ↔ b.Extends t.vars c ∧ ∃ f ∈ F, t.ground c = .ok f := by
  rw [mem_of_filterMapM_eq_ok h]
  simp only [Tuple.matchFact_eq_ok_some_iff]
  exact ⟨fun ⟨f, hf, hext, hg⟩ => ⟨hext, f, hf, hg⟩, fun ⟨hext, f, hf, hg⟩ => ⟨f, hf, hext, hg⟩⟩

end FactBase

end ForwardChaining
