import ForwardChaining.Proofs.Solving
import Mathlib.Data.List.Nodup

/-!
# Distinctness — no solution is found twice

A binding determines the fact that a tuple was matched with, and with it the way that the search has
taken. So a query answers with different bindings, and solving with different solutions
(`solve_nodup`).
-/

namespace ForwardChaining

/-! ## 1. Lists of computations -/

section Lists

variable {ε α β : Type} {l : List α} {R : α → α → Prop} {S : β → β → Prop}

/-- Results stand in the order of the members that they come from. -/
theorem pairwise_of_filterMapM {f : α → Except ε (Option β)} {ys : List β}
    (h : l.filterMapM f = .ok ys) (hl : l.Pairwise R)
    (hRS : ∀ x x' y y', R x x' → f x = .ok (some y) → f x' = .ok (some y') → S y y') :
    ys.Pairwise S := by
  obtain ⟨os, hos, rfl⟩ := filterMapM_eq_ok_iff.1 h
  have hforall := mapM_eq_ok_iff.1 hos
  clear h hos
  induction hforall with
  | nil => exact List.Pairwise.nil
  | @cons x o l os ho hos ih =>
    have ⟨hx, hl⟩ := List.pairwise_cons.1 hl
    cases o with
    | none => exact ih hl
    | some y =>
      refine List.pairwise_cons.2 ⟨fun y' hy' => ?_, ih hl⟩
      -- a later result comes from a later member
      have hfilter := filterMapM_eq_ok_iff.2 ⟨os, mapM_eq_ok_iff.2 hos, rfl⟩
      have ⟨x', hx', hfx'⟩ := (mem_of_filterMapM_eq_ok hfilter y').1 hy'
      exact hRS x x' y y' (hx x' hx') ho hfx'

theorem pairwise_flatten_of_mapM {f : α → Except ε (List β)} {groups : List (List β)}
    (h : l.mapM f = .ok groups) (hl : l.Pairwise R)
    (hgroup : ∀ x ∈ l, ∀ ys, f x = .ok ys → ys.Pairwise S)
    (hRS : ∀ x ∈ l, ∀ x' ∈ l, ∀ ys ys', R x x' → f x = .ok ys → f x' = .ok ys' →
      ∀ y ∈ ys, ∀ y' ∈ ys', S y y') :
    groups.flatten.Pairwise S := by
  refine List.pairwise_flatten.2 ⟨fun ys hys => ?_, ?_⟩
  · have ⟨x, hx, hfx⟩ := (mem_of_mapM_eq_ok h ys).1 hys
    exact hgroup x hx ys hfx
  · have hforall := mapM_eq_ok_iff.1 h
    clear h hgroup
    induction hforall with
    | nil => exact List.Pairwise.nil
    | @cons x ys l groups hys hgroups ih =>
      have ⟨hx, hl⟩ := List.pairwise_cons.1 hl
      refine List.pairwise_cons.2 ⟨fun ys' hys' => ?_, ih hl fun x hx x' hx' =>
        hRS x (List.mem_cons_of_mem _ hx) x' (List.mem_cons_of_mem _ hx')⟩
      have ⟨x', hx', hfx'⟩ := (mem_of_mapM_eq_ok (mapM_eq_ok_iff.2 hgroups) ys').1 hys'
      exact hRS x List.mem_cons_self x' (List.mem_cons_of_mem _ hx') ys ys' (hx x' hx') hys hfx'

theorem nodup_of_filterMapM {f : α → Except ε (Option β)} {ys : List β}
    (h : l.filterMapM f = .ok ys) (hl : l.Nodup)
    (hinj : ∀ x x' y, f x = .ok (some y) → f x' = .ok (some y) → x = x') : ys.Nodup := by
  refine pairwise_of_filterMapM h hl fun x x' y y' hne hy hy' he => hne ?_
  exact hinj x x' y hy (he ▸ hy')

theorem nodup_flatten_of_mapM {f : α → Except ε (List β)} {groups : List (List β)}
    (h : l.mapM f = .ok groups) (hl : l.Nodup)
    (hgroup : ∀ x ∈ l, ∀ ys, f x = .ok ys → ys.Nodup)
    (hinj : ∀ x ∈ l, ∀ x' ∈ l, ∀ ys ys' y, f x = .ok ys → f x' = .ok ys' → y ∈ ys → y ∈ ys' → x = x') :
    groups.flatten.Nodup := by
  refine pairwise_flatten_of_mapM h hl hgroup fun x hx x' hx' ys ys' hne hys hys' y hy y' hy' he => ?_
  exact hne (hinj x hx x' hx' ys ys' y hys hys' hy (he ▸ hy'))

theorem eq_singleton_of_nodup {x : α} (hl : l.Nodup) (h : ∀ y, y ∈ l ↔ y = x) : l = [x] := by
  have hperm : l.Perm [x] := (List.perm_ext_iff_of_nodup hl (List.nodup_singleton x)).2 fun y => by
    rw [h, List.mem_singleton]
  exact List.perm_singleton.1 hperm

end Lists

/-! ## 2. Queries -/

section Queries

variable {F : FactBase} {t : Tuple} {b c : Binding}

theorem Binding.Extends.eq_of_isBound {vs : List Variable} (h : b.Extends vs c)
    (hb : ∀ v ∈ vs, b.isBound v) : c = b :=
  (eq_of_subset h.1 fun v hv => ((h.2 v).1 hv).elim id (hb v)).symm

/-- Two parts of a binding that bind the same variables are equal. -/
theorem Binding.Extends.eq_of_subset {vs : List Variable} {c' x : Binding} (h : b.Extends vs c)
    (h' : b.Extends vs c') (hx : c ⊆ x) (hx' : c' ⊆ x) : c = c' := by
  have hsub : c ⊆ c' := (subset_iff c c').2 fun v a hv => by
    have hbound : c'.isBound v := (h'.2 v).2 ((h.2 v).1 ((isBound_iff c v).2 ⟨a, hv⟩))
    have ⟨a', ha'⟩ := (isBound_iff c' v).1 hbound
    -- both values are the one that `x` has
    rw [ha', ← get?_of_subset hx hv, ← get?_of_subset hx' ha']
  exact Binding.eq_of_subset hsub fun v hv => (h.2 v).2 ((h'.2 v).1 hv)

theorem FactBase.query_nodup {bs : List Binding} (h : F.query t b = .ok bs) : bs.Nodup := by
  refine nodup_of_filterMapM h F.nodup fun f f' c hf hf' => ?_
  -- a match grounds the tuple to the fact
  have hg := (Tuple.matchFact_eq_ok_some_iff.1 hf).2
  have hg' := (Tuple.matchFact_eq_ok_some_iff.1 hf').2
  exact Except.ok.inj (hg.symm.trans hg')

/-- A tuple whose variables have values is asked for as a fact. -/
theorem FactBase.query_of_ground {f : Fact} (h : t.ground b = .ok f) :
    F.query t b = .ok (if f ∈ F then [b] else []) := by
  have ⟨bs, hbs⟩ := F.exists_query_eq_ok t b
  have hbound : ∀ v ∈ t.vars, b.isBound v := Tuple.exists_ground_eq_ok_iff.1 ⟨f, h⟩
  have hmem : ∀ c, c ∈ bs ↔ c = b ∧ f ∈ F := by
    intro c
    rw [mem_of_query_eq_ok hbs]
    refine ⟨fun ⟨hext, g, hg, hc⟩ => ?_, fun ⟨hc, hf⟩ => ?_⟩
    · have he : c = b := hext.eq_of_isBound hbound
      rw [he, h] at hc
      exact ⟨he, Except.ok.inj hc ▸ hg⟩
    · rw [hc]
      refine ⟨⟨Binding.subset_refl b, fun v => ⟨Or.inl, fun hv => hv.elim id (hbound v)⟩⟩, f, hf, h⟩
  rw [hbs]
  by_cases hf : f ∈ F
  · rw [if_pos hf, eq_singleton_of_nodup (query_nodup hbs) fun c => by rw [hmem, and_iff_left hf]]
  · rw [if_neg hf, List.eq_nil_iff_forall_not_mem.2 fun c hc => hf ((hmem c).1 hc).2]

end Queries

/-! ## 3. Solutions -/

section Solutions

variable {F : FactBase} {b : Binding} {sols : List Binding}

theorem search_nodup {k : Condition} (h : k.search .builtin F b = .ok sols) : sols.Nodup := by
  cases k.kind with
  | tuple t ht => exact FactBase.query_nodup ((search_tuple_eq_ok_iff ht).1 h)
  | negation body =>
    obtain ⟨inner, _, rfl⟩ := search_negation_eq_ok_iff.1 h
    split
    · exact List.nodup_singleton b
    · exact List.nodup_nil
  | guard e =>
    obtain ⟨p, _, rfl⟩ := search_guard_eq_ok_iff.1 h
    split
    · exact List.nodup_singleton b
    · exact List.nodup_nil
  | rejected _ hk => exact absurd h hk.search_ne_ok

/-- The solutions of a conjunction are all different. -/
theorem solve_nodup {cs : List Condition} (h : solve .builtin F cs b = .ok sols) : sols.Nodup := by
  induction cs generalizing b sols with
  | nil =>
    cases h
    exact List.nodup_singleton b
  | cons k cs ih =>
    obtain ⟨mids, hmids, groups, hgroups, rfl⟩ := solve_cons_eq_ok_iff.1 h
    refine nodup_flatten_of_mapM hgroups (search_nodup hmids) (fun m _ ys hys => ih hys) ?_
    intro m hm m' hm' ys ys' x hys hys' hx hx'
    -- `m` and `m'` bind the same variables and are parts of the same solution
    exact (extends_of_mem_search hmids hm).eq_of_subset (extends_of_mem_search hmids hm')
      (extends_of_mem_solve hys hx).1 (extends_of_mem_solve hys' hx').1

end Solutions

end ForwardChaining
