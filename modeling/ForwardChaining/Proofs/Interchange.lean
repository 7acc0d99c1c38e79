import ForwardChaining.Proofs.Firing
import ForwardChaining.Proofs.Solving
import Mathlib.Data.List.Perm.Basic

/-!
# Interchange — the order of the facts changes nothing but the order of what is found

Over fact bases with the same facts, conditions can be solved alike or not at all, and their solutions
are the same up to their order (`solve_perm`). Which branch is visited first may decide which error is
reported, but not whether there is one: every branch is visited before a conjunction succeeds. A negation
asks only whether its body has a solution. So the candidates of an engine are the same up to their order
too (`FactBase.interchangeable`).
-/

namespace ForwardChaining

/-! ## 1. Computations for the members of a list in another order -/

section Lists

variable {ε α β : Type} {l l' : List α}

theorem exists_mapM_perm {f : α → Except ε β} {ys : List β} (hl : l.Perm l')
    (h : l.mapM f = .ok ys) : ∃ ys', l'.mapM f = .ok ys' ∧ ys.Perm ys' := by
  have ⟨ys', hys', hperm⟩ := List.perm_comp_forall₂ hl.symm (mapM_eq_ok_iff.1 h)
  exact ⟨ys', mapM_eq_ok_iff.2 hys', hperm.symm⟩

theorem exists_filterMapM_perm {f : α → Except ε (Option β)} {ys : List β} (hl : l.Perm l')
    (h : l.filterMapM f = .ok ys) : ∃ ys', l'.filterMapM f = .ok ys' ∧ ys.Perm ys' := by
  obtain ⟨os, hos, rfl⟩ := filterMapM_eq_ok_iff.1 h
  have ⟨os', hos', hperm⟩ := exists_mapM_perm hl hos
  exact ⟨_, filterMapM_eq_ok_iff.2 ⟨os', hos', rfl⟩, hperm.filterMap id⟩

/-- Computations that succeed where the other does, with the same results in some order, succeed both
or not at all. -/
theorem exists_ok_iff_and_perm {x y : Except ε (List α)}
    (hxy : ∀ xs, x = .ok xs → ∃ ys, y = .ok ys ∧ xs.Perm ys)
    (hyx : ∀ ys, y = .ok ys → ∃ xs, x = .ok xs ∧ ys.Perm xs) :
    ((∃ xs, x = .ok xs) ↔ ∃ ys, y = .ok ys) ∧
      ∀ xs ys, x = .ok xs → y = .ok ys → xs.Perm ys := by
  refine ⟨⟨fun ⟨xs, hx⟩ => ?_, fun ⟨ys, hy⟩ => ?_⟩, fun xs ys hx hy => ?_⟩
  · have ⟨ys, hy, _⟩ := hxy xs hx
    exact ⟨ys, hy⟩
  · have ⟨xs, hx, _⟩ := hyx ys hy
    exact ⟨xs, hx⟩
  · have ⟨ys', hy', hperm⟩ := hxy xs hx
    cases hy.symm.trans hy'
    exact hperm

end Lists

/-! ## 2. Solutions -/

section Solutions

variable {F G : FactBase} {b : Binding} {sols : List Binding}

namespace FactBase

theorem equiv_symm (h : F ≈ G) : G ≈ F :=
  ⟨h.2, h.1⟩

theorem facts_perm (h : F ≈ G) : F.facts.Perm G.facts :=
  (List.perm_ext_iff_of_nodup F.nodup G.nodup).2 (equiv_iff.1 h)

theorem query_perm {t : Tuple} (h : F ≈ G) (hF : F.query t b = .ok sols) :
    ∃ sols', G.query t b = .ok sols' ∧ sols.Perm sols' :=
  exists_filterMapM_perm (facts_perm h) hF

end FactBase

/-- Whether a condition that can be solved over some facts can be solved over others, with the same
solutions in some order. -/
def Condition.Shuffles (F G : FactBase) (c : Condition) : Prop :=
  ∀ b sols, c.search .builtin F b = .ok sols →
    ∃ sols', c.search .builtin G b = .ok sols' ∧ sols.Perm sols'

theorem solve_perm_of_shuffles {cs : List Condition} (hcs : ∀ c ∈ cs, c.Shuffles F G)
    (hF : solve .builtin F cs b = .ok sols) :
    ∃ sols', solve .builtin G cs b = .ok sols' ∧ sols.Perm sols' := by
  induction cs generalizing b sols with
  | nil => exact ⟨sols, hF, List.Perm.refl sols⟩
  | cons c cs ih =>
    have ⟨hc, hcs⟩ := List.forall_mem_cons.1 hcs
    obtain ⟨mids, hmids, groups, hgroups, rfl⟩ := solve_cons_eq_ok_iff.1 hF
    -- the branches come in another order, and each finds its solutions in another order
    have ⟨mids', hmids', hmid⟩ := hc b mids hmids
    have ⟨groups', hgroups', hgroup⟩ := exists_mapM_perm hmid hgroups
    have ⟨groups'', hgroups'', hrel⟩ := exists_mapM_forall₂ hgroups' fun m _ _ hm => ih hcs hm
    refine ⟨groups''.flatten, solve_cons_eq_ok_iff.2 ⟨mids', hmids', groups'', hgroups'', rfl⟩, ?_⟩
    exact hgroup.flatten.trans (List.Perm.flatten_congr hrel.flip)

theorem Condition.shuffles (h : F ≈ G) (c : Condition) : c.Shuffles F G := by
  induction c using Condition.induction with
  | tuple t ht =>
    intro b sols hF
    have ⟨sols', hG, hperm⟩ := FactBase.query_perm h ((search_tuple_eq_ok_iff ht).1 hF)
    exact ⟨sols', (search_tuple_eq_ok_iff ht).2 hG, hperm⟩
  | negation body ih =>
    intro b sols hF
    obtain ⟨inner, hinner, rfl⟩ := search_negation_eq_ok_iff.1 hF
    have ⟨inner', hinner', hperm⟩ := solve_perm_of_shuffles ih hinner
    -- the bodies have equally many solutions
    have hnil : inner = [] ↔ inner' = [] := by
      rw [← List.length_eq_zero_iff, ← List.length_eq_zero_iff, hperm.length_eq]
    refine ⟨_, search_negation_eq_ok_iff.2 ⟨inner', hinner', rfl⟩, ?_⟩
    simp only [hnil]
    exact List.Perm.refl _
  | guard e =>
    intro b sols hF
    -- a guard does not look at the facts
    exact ⟨sols, search_guard_eq_ok_iff.2 (search_guard_eq_ok_iff.1 hF), List.Perm.refl sols⟩
  | rejected c hr =>
    intro b sols hF
    exact absurd hF hr.search_ne_ok

theorem solve_perm (h : F ≈ G) {cs : List Condition} (hF : solve .builtin F cs b = .ok sols) :
    ∃ sols', solve .builtin G cs b = .ok sols' ∧ sols.Perm sols' :=
  solve_perm_of_shuffles (fun c _ => c.shuffles h) hF

end Solutions

/-! ## 3. Candidates -/

section Candidates

variable {F G : FactBase}

theorem Rule.isProductive_congr (h : F ≈ G) (r : Rule) (b : Binding) :
    r.isProductive b F = r.isProductive b G := by
  have hnew : ∀ f : Fact, decide (f ∉ F) = decide (f ∉ G) := fun f =>
    decide_eq_decide.2 (not_congr (FactBase.equiv_iff.1 h f))
  unfold Rule.isProductive
  simp only [hnew]

namespace Engine

theorem offers_congr (h : F ≈ G) (e : Engine) (r : Rule) (b : Binding) :
    e.offers F r b = e.offers G r b := by
  unfold offers
  rw [Rule.isProductive_congr h]

theorem candidatesOf_perm {e : Engine} (hforms : e.forms = .builtin) (h : F ≈ G) {r : Rule}
    {index : Nat} {cs : List Candidate} (hF : e.candidatesOf F r index = .ok cs) :
    ∃ cs', e.candidatesOf G r index = .ok cs' ∧ cs.Perm cs' := by
  obtain ⟨sols, hsols, hcs⟩ := candidatesOf_eq_ok_iff.1 hF
  rw [hforms] at hsols
  have ⟨sols', hsols', hperm⟩ := solve_perm h hsols
  have ⟨cs', hcs', hperm'⟩ := exists_filterMapM_perm hperm hcs
  simp only [offers_congr h] at hcs'
  refine ⟨cs', candidatesOf_eq_ok_iff.2 ⟨sols', ?_, hcs'⟩, hperm'⟩
  rw [hforms]
  exact hsols'

/-- What can be enumerated over some facts can be enumerated over the same facts in another order, and
has the same candidates in some order. -/
theorem candidates_perm {e : Engine} (hforms : e.forms = .builtin) (h : F ≈ G)
    {cs : List Candidate} (hF : e.candidates F = .ok cs) :
    ∃ cs', e.candidates G = .ok cs' ∧ cs.Perm cs' := by
  have ⟨perRule, hperRule, hcs⟩ := bind_eq_ok_iff.1 hF
  cases hcs
  have ⟨perRule', hperRule', hrel⟩ := exists_mapM_forall₂ hperRule fun p _ _ hcs =>
    candidatesOf_perm hforms h hcs
  exact ⟨perRule'.flatten, bind_eq_ok_iff.2 ⟨perRule', hperRule', rfl⟩,
    List.Perm.flatten_congr hrel.flip⟩

end Engine

/-- Fact bases with the same facts are interchangeable under the built-in forms. Conditions of any kind
can be solved over both or over neither, with the same solutions in some order, and so it is with the
candidates of any rules in either mode. -/
theorem FactBase.interchangeable (h : F ≈ G) :
    (∀ (cs : List Condition) (b : Binding),
      ((∃ sols, solve .builtin F cs b = .ok sols) ↔ ∃ sols, solve .builtin G cs b = .ok sols) ∧
      ∀ sols sols', solve .builtin F cs b = .ok sols → solve .builtin G cs b = .ok sols' →
        sols.Perm sols') ∧
    ∀ (rules : List Rule) (productiveOnly : Bool),
      let e : Engine := { rules := rules, productiveOnly := productiveOnly }
      ((∃ cs, e.candidates F = .ok cs) ↔ ∃ cs, e.candidates G = .ok cs) ∧
      ∀ cs cs', e.candidates F = .ok cs → e.candidates G = .ok cs' → cs.Perm cs' := by
  have h' : G ≈ F := equiv_symm h
  refine ⟨fun cs b => ?_, fun rules productiveOnly => ?_⟩
  · exact exists_ok_iff_and_perm (fun _ => solve_perm h) (fun _ => solve_perm h')
  · intro e
    have hforms : e.forms = .builtin := rfl
    exact exists_ok_iff_and_perm (fun _ => Engine.candidates_perm hforms h)
      (fun _ => Engine.candidates_perm hforms h')

end Candidates

/-- What is not marked: `(number ?x)`, `(not (marked ?x))` and `(if (< ?x 9))` give `(kept ?x)`. -/
def Rule.unmarked (number marked kept : Atom) : Rule :=
  let x : Term := .var ⟨0⟩
  { conditions :=
      [.tuple [.const number, x], .negation [.tuple [.const marked, x]],
       .guard (.binary (.order .lt) (.leaf x) (.leaf (.const (.integer 9))))]
    conclusions := [[.const kept, x]] }

/-- Facts in the opposite order: the solutions and the candidates come in the opposite order as well. -/
theorem interchangeable_unmarked :
    let number : Atom := .symbol ⟨2⟩
    let marked : Atom := .symbol ⟨3⟩
    let fs : List Fact :=
      [[number, .integer 1], [number, .integer 2], [number, .integer 3], [marked, .integer 2]]
    let F : FactBase := .ofList fs
    let G : FactBase := .ofList fs.reverse
    let r : Rule := .unmarked number marked (.symbol ⟨4⟩)
    let e : Engine := { rules := [r], productiveOnly := true }
    let low : Binding := ⟨⟨[(0, .integer 1)], by decide⟩⟩
    let high : Binding := ⟨⟨[(0, .integer 3)], by decide⟩⟩
    let candidates (bs : List Binding) : List Candidate := bs.map fun b => ⟨0, r, b⟩
    F ≈ G ∧ solve .builtin F r.conditions ∅ = .ok [low, high] ∧
      solve .builtin G r.conditions ∅ = .ok [high, low] ∧ [low, high].Perm [high, low] ∧
      e.candidates F = .ok (candidates [low, high]) ∧ e.candidates G = .ok (candidates [high, low]) ∧
      (candidates [low, high]).Perm (candidates [high, low]) := by
  intro number marked fs F G r e low high candidates
  have h : F ≈ G := by decide
  have hF : solve .builtin F r.conditions ∅ = .ok [low, high] := by rfl
  have hG : solve .builtin G r.conditions ∅ = .ok [high, low] := by rfl
  have heF : e.candidates F = .ok (candidates [low, high]) := by rfl
  have heG : e.candidates G = .ok (candidates [high, low]) := by rfl
  have ⟨hsolve, hcandidates⟩ := FactBase.interchangeable h
  exact ⟨h, hF, hG, (hsolve r.conditions ∅).2 _ _ hF hG, heF, heG,
    (hcandidates [r] true).2 _ _ heF heG⟩

end ForwardChaining
