import ForwardChaining.Proofs.Budget
import ForwardChaining.Proofs.Growth
import ForwardChaining.Proofs.Positive
import Mathlib.Data.List.Flatten

/-!
# Persistence — what is applicable without negation stays applicable

Over more facts, in the same order, positive conditions have more solutions, in the same order
(`solve_sublist`). A run only appends facts, so outside the productive mode the candidates of positive
rules are never lost: those of an earlier state are among those of a later one
(`Run.candidates_after_sublist`), and a run that starts with a candidate never comes to a fixpoint.
-/

namespace ForwardChaining

/-! ## 1. Solutions over more facts -/

section Solutions

variable {F G : FactBase} {b : Binding} {sols : List Binding}

theorem sublist_flatten {α : Type} {xs ys : List (List α)} (h : List.Forall₂ List.Sublist xs ys) :
    xs.flatten.Sublist ys.flatten := by
  induction h with
  | nil => exact List.Sublist.refl _
  | cons hxy _ ih =>
    rw [List.flatten_cons, List.flatten_cons]
    exact hxy.append ih

theorem FactBase.query_sublist {t : Tuple} (h : F.facts.Sublist G.facts)
    (hG : G.query t b = .ok sols) : ∃ sols', F.query t b = .ok sols' ∧ sols'.Sublist sols := by
  obtain ⟨os, hos, rfl⟩ := filterMapM_eq_ok_iff.1 hG
  have ⟨os', hos', hsub⟩ := exists_mapM_of_sublist h hos
  exact ⟨_, filterMapM_eq_ok_iff.2 ⟨os', hos', rfl⟩, hsub.filterMap id⟩

/-- A positive condition that can be solved over some facts can be solved over a part of them, and has
some of the solutions there, in the same order. -/
theorem Condition.search_sublist {c : Condition} (hc : c.isPositive) (h : F.facts.Sublist G.facts)
    (hG : c.search .builtin G b = .ok sols) :
    ∃ sols', c.search .builtin F b = .ok sols' ∧ sols'.Sublist sols := by
  cases c.kind with
  | tuple t ht =>
    have ⟨sols', hF, hsub⟩ := FactBase.query_sublist h ((search_tuple_eq_ok_iff ht).1 hG)
    exact ⟨sols', (search_tuple_eq_ok_iff ht).2 hF, hsub⟩
  | negation body =>
    rw [isPositive_negation] at hc
    cases hc
  | guard e =>
    -- a guard does not look at the facts
    exact ⟨sols, search_guard_eq_ok_iff.2 (search_guard_eq_ok_iff.1 hG), List.Sublist.refl sols⟩
  | rejected _ hr => exact absurd hG hr.search_ne_ok

theorem solve_sublist {cs : List Condition} (hcs : ∀ c ∈ cs, c.isPositive)
    (h : F.facts.Sublist G.facts) (hG : solve .builtin G cs b = .ok sols) :
    ∃ sols', solve .builtin F cs b = .ok sols' ∧ sols'.Sublist sols := by
  induction cs generalizing b sols with
  | nil => exact ⟨sols, hG, List.Sublist.refl sols⟩
  | cons c cs ih =>
    have ⟨hc, hcs⟩ := List.forall_mem_cons.1 hcs
    obtain ⟨mids, hmids, groups, hgroups, rfl⟩ := solve_cons_eq_ok_iff.1 hG
    -- some of the solutions of the first condition are left, and each has some of its extensions
    have ⟨mids', hmids', hmid⟩ := c.search_sublist hc h hmids
    have ⟨groups', hgroups', hgroup⟩ := exists_mapM_of_sublist hmid hgroups
    have ⟨groups'', hgroups'', hsub⟩ := exists_mapM_forall₂ hgroups' fun m _ _ hm => ih hcs hm
    refine ⟨groups''.flatten, solve_cons_eq_ok_iff.2 ⟨mids', hmids', groups'', hgroups'', rfl⟩, ?_⟩
    exact (sublist_flatten hsub).trans hgroup.flatten

end Solutions

/-! ## 2. Candidates over more facts -/

namespace Engine

variable {e : Engine} {F G : FactBase}

theorem candidatesOf_sublist (hforms : e.forms = .builtin) (hmode : e.productiveOnly = false)
    (h : F.facts.Sublist G.facts) {r : Rule} (hr : r.isPositive) {index : Nat} {cs : List Candidate}
    (hG : e.candidatesOf G r index = .ok cs) :
    ∃ cs', e.candidatesOf F r index = .ok cs' ∧ cs'.Sublist cs := by
  have ⟨sols, hsols, _⟩ := candidatesOf_eq_ok_iff.1 hG
  rw [candidatesOf_eq_ok_map hmode hsols] at hG
  cases hG
  rw [hforms] at hsols
  have ⟨sols', hsols', hsub⟩ := solve_sublist (List.all_eq_true.1 hr) h hsols
  rw [← hforms] at hsols'
  exact ⟨_, candidatesOf_eq_ok_map hmode hsols' index, hsub.map _⟩

/-- Outside the productive mode, positive rules that can be enumerated over some facts can be enumerated
over a part of them, and have some of the candidates there, in the same order. -/
theorem candidates_sublist (hforms : e.forms = .builtin) (hmode : e.productiveOnly = false)
    (hpos : ∀ r ∈ e.rules, r.isPositive) (h : F.facts.Sublist G.facts) {cs : List Candidate}
    (hG : e.candidates G = .ok cs) : ∃ cs', e.candidates F = .ok cs' ∧ cs'.Sublist cs := by
  have ⟨perRule, hperRule, hcs⟩ := bind_eq_ok_iff.1 hG
  cases hcs
  have ⟨perRule', hperRule', hsub⟩ := exists_mapM_forall₂ hperRule fun p hp _ hcs =>
    candidatesOf_sublist hforms hmode h
      (hpos p.1 (List.mem_of_getElem? (List.mem_zipIdx_iff_getElem?.1 hp))) hcs
  exact ⟨perRule'.flatten, bind_eq_ok_iff.2 ⟨perRule', hperRule', rfl⟩, sublist_flatten hsub⟩

end Engine

/-! ## 3. Runs -/

section Runs

variable {σ : Type}

namespace Run

variable {r : Run σ}

theorem candidates_after_sublist (hforms : r.engine.forms = .builtin)
    (hmode : r.engine.productiveOnly = false) (hpos : ∀ r' ∈ r.engine.rules, r'.isPositive) {j k : Nat}
    (hjk : j ≤ k) {cs : List Candidate} (hcs : r.engine.candidates (r.after k).facts = .ok cs) :
    ∃ cs', r.engine.candidates (r.after j).facts = .ok cs' ∧ cs'.Sublist cs :=
  Engine.candidates_sublist hforms hmode hpos (r.facts_isPrefix_after hjk).sublist hcs

/-- Candidates at the start are still there when a fixpoint would be reported. -/
theorem answer_ne_fixpoint (hforms : r.engine.forms = .builtin)
    (hmode : r.engine.productiveOnly = false) (hpos : ∀ r' ∈ r.engine.rules, r'.isPositive)
    {cs : List Candidate} (hcs : r.engine.candidates r.facts = .ok cs) (hne : cs ≠ []) (k : Nat) :
    r.answer k ≠ .ok .fixpoint := by
  intro hfix
  have ⟨hnone, _⟩ := step_eq_fixpoint hfix
  rw [engine_after] at hnone
  have ⟨cs', hcs', hsub⟩ := candidates_after_sublist hforms hmode hpos (Nat.zero_le k) hnone
  cases hcs.symm.trans hcs'
  exact hne (List.sublist_nil.1 hsub)

theorem complete_of_ne_fixpoint (hphase : r.phase ≠ .finished) (h : ∀ k, r.answer k ≠ .ok .fixpoint)
    (n : Nat) : (∃ err, r.complete n = .error err) ∨
      r.complete n = .ok ⟨(r.after n).facts, r.steps + n, false⟩ := by
  rcases r.ending_cases n with hall | ⟨k, hk, hlt, (hfix | hdone) | ⟨err, herr⟩⟩
  · exact Or.inr (complete_of_forall_derived hall)
  · exact absurd hfix (h k)
  · exact absurd (phase_eq_of_step_eq_done hdone) (phase_after_ne_finished hphase hlt)
  · exact Or.inl ⟨err, complete_of_failure hlt herr hk⟩

end Run

/-- Outside the productive mode, rules without negations stay applicable. If the candidates of a state
of a run can be enumerated, so can those of all earlier states, and they are among them, in the same
order. So from facts with a candidate no step comes to a fixpoint, and a simulation fails or uses up its
budget. -/
theorem Domain.candidates_persist {d : Domain} (hforms : d.forms = .builtin)
    (hpos : ∀ r ∈ d.rules, r.isPositive) :
    (∀ {σ : Type} (strategy : Strategy σ) (state : σ) (F₀ : FactBase),
      let e := d.engine false
      let r := e.run strategy state F₀
      (∀ j k, j ≤ k → ∀ cs, e.candidates (r.after k).facts = .ok cs →
        ∃ cs', e.candidates (r.after j).facts = .ok cs' ∧ cs'.Sublist cs) ∧
      ∀ cs, e.candidates F₀ = .ok cs → cs ≠ [] → ∀ k, r.answer k ≠ .ok .fixpoint) ∧
    ∀ {σ : Type} (s : Simulation σ), s.domain = d → s.productiveOnly = false →
      ∀ cs, (d.engine false).candidates d.initialFacts = .ok cs → cs ≠ [] →
        (∃ err, s.outcome = .error err) ∨ ∃ F, s.outcome = .ok ⟨F, s.maxSteps, false⟩ := by
  refine ⟨fun strategy state F₀ => ?_, fun s hdomain hmode cs hcs hne => ?_⟩
  · intro e r
    exact ⟨fun j k hjk cs hcs => Run.candidates_after_sublist (r := r) hforms rfl hpos hjk hcs,
      fun cs hcs hne k => Run.answer_ne_fixpoint (r := r) hforms rfl hpos hcs hne k⟩
  · subst hdomain
    have hengine : s.start.engine = s.domain.engine false := by
      rw [← hmode]
      rfl
    have hstart : s.start.engine.candidates s.start.facts = .ok cs := by
      rw [hengine]
      exact hcs
    have hnever : ∀ k, s.start.answer k ≠ .ok .fixpoint :=
      Run.answer_ne_fixpoint (r := s.start) hforms hmode hpos hstart hne
    rcases Run.complete_of_ne_fixpoint (r := s.start) (fun hp => (nomatch hp)) hnever s.maxSteps with h | h
    · exact Or.inl h
    · have hsteps : s.start.steps + s.maxSteps = s.maxSteps := Nat.zero_add s.maxSteps
      rw [hsteps] at h
      exact Or.inr ⟨_, h⟩

end Runs

/-- What is reached along rising edges: `(edge ?x ?y)`, `(reached ?x)` and `(if (< ?x ?y))` give
`(reached ?y)`. -/
def Domain.rising (edge reached : Atom) : Domain :=
  let x : Term := .var ⟨0⟩
  let y : Term := .var ⟨1⟩
  { rules :=
      [{ conditions :=
           [.tuple [.const edge, x, y], .tuple [.const reached, x],
            .guard (.binary (.order .lt) (.leaf x) (.leaf y))]
         conclusions := [[.const reached, y]] }]
    facts :=
      [[edge, .integer 2, .integer 3], [edge, .integer 1, .integer 2], [edge, .integer 2, .integer 1],
       [reached, .integer 1]] }

/-- A new candidate comes before the one that has been there from the start. -/
theorem candidates_persist_rising :
    let d := Domain.rising (.symbol ⟨2⟩) (.symbol ⟨3⟩)
    let e := d.engine false
    let s : Simulation Policy :=
      { domain := d
        strategy := Policy.choose
        state := .first
        maxSteps := 5 }
    let r := e.run s.strategy s.state d.initialFacts
    let b : Binding := ⟨⟨[(0, .integer 1), (1, .integer 2)], by decide⟩⟩
    let b' : Binding := ⟨⟨[(0, .integer 2), (1, .integer 3)], by decide⟩⟩
    let candidates (bs : List Binding) : List Candidate :=
      d.rules.flatMap fun rule => bs.map fun b => ⟨0, rule, b⟩
    (∀ rule ∈ d.rules, rule.isPositive) ∧
      e.candidates (r.after 2).facts = .ok (candidates [b', b]) ∧
      (∃ cs, e.candidates (r.after 0).facts = .ok cs ∧ cs.Sublist (candidates [b', b])) ∧
      e.candidates d.initialFacts = .ok (candidates [b]) ∧ (∀ k, r.answer k ≠ .ok .fixpoint) ∧
      ((∃ err, s.outcome = .error err) ∨ ∃ F, s.outcome = .ok ⟨F, 5, false⟩) := by
  intro d e s r b b' candidates
  have hpos : ∀ rule ∈ d.rules, rule.isPositive := by decide
  have hlater : e.candidates (r.after 2).facts = .ok (candidates [b', b]) := by rfl
  have hstart : e.candidates d.initialFacts = .ok (candidates [b]) := by rfl
  have hne : candidates [b] ≠ [] := List.cons_ne_nil _ _
  have ⟨hruns, houtcome⟩ := Domain.candidates_persist (d := d) rfl hpos
  have ⟨hkept, hnever⟩ := hruns s.strategy s.state d.initialFacts
  exact ⟨hpos, hlater, hkept 0 2 (by decide) _ hlater, hstart, hnever _ hstart hne,
    houtcome s rfl rfl _ hstart hne⟩

end ForwardChaining
