import ForwardChaining.Proofs.Application
import ForwardChaining.Proofs.Satisfaction

/-!
# Conclusions — what is reported for them is what no solution binds

The check of a rule looks at the conditions alone, and a solution comes from the facts. But a solution has
gone through all conditions, so none of them is malformed and the only ones that can bind are tuples. All
solutions therefore bind the same variables, and the conclusion variables that are reported are those that
they leave without a value (`Rule.conclusion_issues_exact`).
-/

namespace ForwardChaining

/-! ## 1. Issues about conclusions -/

/-- The variable of an issue about a conclusion. -/
def Issue.conclusion? : Issue → Option Variable
  | .conclusion v => some v
  | .guard _ => none
  | .negation _ => none

theorem Issue.conclusion?_eq_some_iff {i : Issue} {v : Variable} :
    i.conclusion? = some v ↔ i = .conclusion v := by
  cases i with
  | conclusion w => rw [conclusion?, Option.some.injEq, Issue.conclusion.injEq]
  | guard w => exact iff_of_false (fun h => by cases h) (fun h => by cases h)
  | negation w => exact iff_of_false (fun h => by cases h) (fun h => by cases h)

section Conditions

variable {later bound : List Variable}

theorem Condition.conclusion?_of_mem_issues_form {head : Symbol} {args : List Argument}
    (hbody : ∀ i ∈ Argument.bodyIssues later bound args, i.conclusion? = none) :
    ∀ i ∈ (form head args).issues later bound, i.conclusion? = none := by
  intro i hi
  rw [issues] at hi
  by_cases hg : head = .guard
  · rw [if_pos hg, List.mem_map] at hi
    obtain ⟨v, _, rfl⟩ := hi
    rfl
  · rw [if_neg hg] at hi
    by_cases hn : head = .negation
    · rw [if_pos hn, List.mem_append, List.mem_map] at hi
      rcases hi with ⟨v, _, rfl⟩ | hi
      · rfl
      · exact hbody i hi
    · rw [if_neg hn] at hi
      cases hi

mutual

/-- What is reported for a condition is not about conclusions, at any depth. -/
theorem Condition.conclusion?_of_mem_issues (bound : List Variable) :
    (c : Condition) → ∀ i ∈ c.issues later bound, i.conclusion? = none
  | .tuple _ => fun _ hi => absurd hi List.not_mem_nil
  | .form _ args =>
    Condition.conclusion?_of_mem_issues_form (Argument.conclusion?_of_mem_bodyIssues bound args)

theorem Argument.conclusion?_of_mem_bodyIssues (bound : List Variable) :
    (args : List Argument) → ∀ i ∈ Argument.bodyIssues later bound args, i.conclusion? = none
  | [] => fun _ hi => absurd hi List.not_mem_nil
  | .term _ :: args => Argument.conclusion?_of_mem_bodyIssues bound args
  | .expr _ :: args => Argument.conclusion?_of_mem_bodyIssues bound args
  | .condition c :: args => fun i hi =>
    (List.mem_append.1 hi).elim (Condition.conclusion?_of_mem_issues bound c i)
      (Argument.conclusion?_of_mem_bodyIssues (bound ++ c.binders) args i)

end

theorem Condition.conclusion?_of_mem_issuesOfAll {cs : List Condition} :
    ∀ i ∈ issuesOfAll later bound cs, i.conclusion? = none := by
  induction cs generalizing bound with
  | nil => exact fun _ hi => absurd hi List.not_mem_nil
  | cons c cs ih =>
    intro i hi
    rcases List.mem_append.1 hi with hi | hi
    · exact conclusion?_of_mem_issues bound c i hi
    · exact ih i hi

end Conditions

namespace Rule

/-- The issues about conclusions are about the variables that no condition can bind, in ascending order and
each once. -/
theorem filterMap_conclusion?_issues (r : Rule) :
    r.issues.filterMap Issue.conclusion? = (ascending r.conclusionVars).filter (· ∉ r.binders) := by
  have hconditions : (Condition.issuesOfAll r.binders [] r.conditions).filterMap Issue.conclusion? = [] :=
    List.filterMap_eq_nil_iff.2 Condition.conclusion?_of_mem_issuesOfAll
  have hconclusions (vs : List Variable) : (vs.map Issue.conclusion).filterMap Issue.conclusion? = vs := by
    rw [List.filterMap_map]
    exact List.filterMap_some
  rw [issues, List.filterMap_append, hconditions, hconclusions]
  rfl

theorem conclusion_mem_issues_iff {r : Rule} {v : Variable} :
    Issue.conclusion v ∈ r.issues ↔ v ∈ r.conclusionVars ∧ v ∉ r.binders := by
  have hfilter : Issue.conclusion v ∈ r.issues ↔ v ∈ r.issues.filterMap Issue.conclusion? := by
    rw [List.mem_filterMap]
    simp only [Issue.conclusion?_eq_some_iff, exists_eq_right]
  rw [hfilter, filterMap_conclusion?_issues, List.mem_filter, mem_ascending, decide_eq_true_iff]

end Rule

/-! ## 2. The variables of solutions -/

section Solutions

variable {F : FactBase} {b x : Binding} {sols : List Binding}

/-- A condition that can be searched is a tuple, or it binds nothing. -/
theorem Condition.binders_of_search_eq_ok {c : Condition} (h : c.search .builtin F b = .ok sols) :
    c.binders = tupleVars [c] := by
  cases c.kind with
  | tuple t _ => exact (List.append_nil t.vars).symm
  | negation body => rfl
  | guard e => rfl
  | rejected _ hc => exact absurd h hc.search_ne_ok

theorem Condition.binders_of_mem_solve {cs : List Condition} (h : solve .builtin F cs b = .ok sols)
    (hx : x ∈ sols) : cs.flatMap binders = tupleVars cs := by
  induction cs generalizing b sols with
  | nil => rfl
  | cons c cs ih =>
    -- that there is a solution says that all conditions have been searched
    obtain ⟨mids, hmids, _⟩ := solve_cons_eq_ok_iff.1 h
    obtain ⟨m, _, sols', hsols', hx⟩ := (mem_of_solve_cons_eq_ok hmids h x).1 hx
    calc
      (c :: cs).flatMap binders = c.binders ++ cs.flatMap binders := List.flatMap_cons
      _ = tupleVars [c] ++ tupleVars cs := by rw [binders_of_search_eq_ok hmids, ih hsols' hx]
      _ = tupleVars (c :: cs) := List.flatMap_append.symm

end Solutions

namespace Rule

variable {r : Rule} {F : FactBase} {sols : List Binding} {b : Binding}

/-- A solution binds the variables of the tuples among the conditions, which are all that the check takes to
be bound. -/
theorem isBound_iff_of_mem_solutions (h : r.solutions .builtin F = .ok sols) (hb : b ∈ sols) (v : Variable) :
    (b.isBound v ↔ v ∈ Condition.tupleVars r.conditions) ∧ (b.isBound v ↔ v ∈ r.binders) := by
  have hbinders : r.binders = Condition.tupleVars r.conditions := Condition.binders_of_mem_solve h hb
  have hbound : b.isBound v ↔ v ∈ r.binders := by
    rw [(extends_of_mem_solve h hb).2 v]
    exact or_iff_right Bool.false_ne_true
  rw [← hbinders]
  exact ⟨hbound, hbound⟩

/-! ## 3. The check of the conclusions -/

/-- The solutions of a rule bind exactly the variables of its tuples, whatever the facts are. Applying the
rule under one of them fails exactly if the check reports a conclusion, and then it fails for a variable that
is reported. All that is reported for conclusions, in order, are the variables of the conclusions that a
solution does not bind, and for every solution they are the same. -/
theorem conclusion_issues_exact (h : r.solutions .builtin F = .ok sols) (hb : b ∈ sols) :
    (∀ v, b.isBound v ↔ v ∈ Condition.tupleVars r.conditions) ∧
      (∀ G, (∃ e, r.apply b G = .error e) ↔ ∃ v, Issue.conclusion v ∈ r.issues) ∧
      (∀ G e, r.apply b G = .error e → Issue.conclusion e.var ∈ r.issues) ∧
      (∀ v, Issue.conclusion v ∈ r.issues ↔ v ∈ r.conclusionVars ∧ ¬ b.isBound v) ∧
      r.issues.filterMap Issue.conclusion? = (ascending r.conclusionVars).filter (¬ b.isBound ·) ∧
      ∀ F' sols', r.solutions .builtin F' = .ok sols' → ∀ b' ∈ sols', ∀ v, b'.isBound v ↔ b.isBound v := by
  have hbound (v : Variable) : b.isBound v ↔ v ∈ r.binders := (isBound_iff_of_mem_solutions h hb v).2
  have hissue (v : Variable) : Issue.conclusion v ∈ r.issues ↔ v ∈ r.conclusionVars ∧ ¬ b.isBound v := by
    rw [conclusion_mem_issues_iff, hbound]
  refine ⟨fun v => (isBound_iff_of_mem_solutions h hb v).1, ?_, ?_, hissue, ?_, ?_⟩
  · intro G
    simp only [apply_eq_map, map_eq_error_iff, exists_instances_eq_error_iff, hissue]
  · intro G e he
    rw [hissue]
    exact Binding.mem_of_firstUnbound (apply_eq_error_iff.1 he)
  · rw [filterMap_conclusion?_issues]
    apply List.filter_congr
    intro v _
    rw [decide_eq_decide, hbound]
  · intro F' sols' h' b' hb' v
    rw [hbound, (isBound_iff_of_mem_solutions h' hb' v).2]

/-- `(cited ?0)`, `(not (retracted ?0 ?1))` and then `(seen ?2 ?0)`, with `(shown ?3 ?0 ?1)` and
`(shown ?2 ?1)` as conclusions. -/
def citation (cited retracted seen shown : Atom) : Rule where
  conditions :=
    [.tuple [.const cited, .var ⟨0⟩], .negation [.tuple [.const retracted, .var ⟨0⟩, .var ⟨1⟩]],
      .tuple [.const seen, .var ⟨2⟩, .var ⟨0⟩]]
  conclusions := [[.const shown, .var ⟨3⟩, .var ⟨0⟩, .var ⟨1⟩], [.const shown, .var ⟨2⟩, .var ⟨1⟩]]

/-- The negation gives `?1` no value, and it is reported next to `?3`. Applying the rule fails for `?3`, which
comes first in the conclusions. -/
theorem conclusion_issues_exact_citation :
    let cited : Atom := .symbol ⟨2⟩
    let retracted : Atom := .symbol ⟨3⟩
    let seen : Atom := .symbol ⟨4⟩
    let r := citation cited retracted seen (.symbol ⟨5⟩)
    let F : FactBase := .ofList
      [[cited, .integer 7], [cited, .integer 8], [retracted, .integer 8, .integer 1],
        [seen, .integer 9, .integer 7], [seen, .integer 9, .integer 8]]
    let b : Binding := ⟨⟨[(0, .integer 7), (2, .integer 9)], by decide⟩⟩
    r.solutions .builtin F = .ok [b] ∧ r.issues = [.conclusion ⟨1⟩, .conclusion ⟨3⟩] ∧
      r.apply b F = .error ⟨⟨3⟩⟩ ∧ ∀ v, b.isBound v ↔ v ∈ Condition.tupleVars r.conditions := by
  intro cited retracted seen r F b
  have hsolutions : r.solutions .builtin F = .ok [b] := by decide
  have hbound := (conclusion_issues_exact hsolutions List.mem_cons_self).1
  exact ⟨hsolutions, by decide, by decide, hbound⟩

end Rule

end ForwardChaining
