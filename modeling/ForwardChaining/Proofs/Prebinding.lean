import ForwardChaining.Rule.Scoping

/-!
# Prebinding — a tuple in front removes the issues of its variables

What a tuple in front of all conditions binds is bound in every scope, at any depth of negations. It is
also among what the conditions bind at all, but that is asked only of variables that are not bound. So a
rule with a tuple in front has the issues of the rule itself that are about other variables
(`Rule.issues_prebind`).
-/

namespace ForwardChaining

/-! ## 1. Issues about other variables -/

namespace Issue

/-- The issues that are about none of the given variables. -/
def outside (vs : List Variable) (is : List Issue) : List Issue :=
  is.filter (·.var ∉ vs)

variable {vs : List Variable}

theorem outside_append (is js : List Issue) :
    outside vs (is ++ js) = outside vs is ++ outside vs js :=
  List.filter_append is js

/-- What is reported for the variables with a property is about other variables exactly if these are. -/
theorem outside_map {kind : Variable → Issue} (hkind : ∀ v, (kind v).var = v) {p q : Variable → Bool}
    (hpq : ∀ v, q v = true ↔ v ∉ vs ∧ p v = true) (ws : List Variable) :
    (ws.filter q).map kind = outside vs ((ws.filter p).map kind) := by
  have hfilter : ws.filter q = (ws.filter p).filter (· ∉ vs) := by
    rw [List.filter_filter]
    apply List.filter_congr
    intro v _
    rw [Bool.eq_iff_iff, hpq, Bool.and_eq_true, decide_eq_true_iff]
  have hvar : (fun i : Issue => decide (i.var ∉ vs)) ∘ kind = fun v => decide (v ∉ vs) := by
    funext v
    show decide ((kind v).var ∉ vs) = _
    rw [hkind]
  rw [outside, List.filter_map, hvar, hfilter]

end Issue

/-! ## 2. Conditions -/

section Conditions

variable (vs later bound : List Variable)

/-- A guard is reported for what is not bound, a negation for what is bound later only. Of either, what is
bound in front is taken away. -/
theorem Condition.issues_form_prebound (head : Symbol) (args : List Argument)
    (hbody : Argument.bodyIssues (vs ++ later) (vs ++ bound) args
      = Issue.outside vs (Argument.bodyIssues later bound args)) :
    (form head args).issues (vs ++ later) (vs ++ bound)
      = Issue.outside vs ((form head args).issues later bound) := by
  by_cases hg : head = .guard
  · rw [issues, issues, if_pos hg, if_pos hg]
    apply Issue.outside_map (fun _ => rfl)
    intro v
    rw [decide_eq_true_iff, decide_eq_true_iff, List.mem_append, not_or]
  · by_cases hn : head = .negation
    · rw [issues, issues, if_neg hg, if_neg hg, if_pos hn, if_pos hn, Issue.outside_append, hbody]
      congr 1
      apply Issue.outside_map (fun _ => rfl)
      intro v
      rw [decide_eq_true_iff, decide_eq_true_iff, List.mem_append, List.mem_append, not_or, and_assoc]
      -- that some condition binds the variable is asked only where it is not bound in front
      refine and_congr_right fun hv => and_congr_right fun _ => ?_
      exact or_iff_right hv
    · rw [issues, issues, if_neg hg, if_neg hg, if_neg hn, if_neg hn]
      rfl

mutual

theorem Condition.issues_prebound (bound : List Variable) :
    (c : Condition) → c.issues (vs ++ later) (vs ++ bound) = Issue.outside vs (c.issues later bound)
  | .tuple _ => rfl
  | .form head args =>
    Condition.issues_form_prebound vs later bound head args (Argument.bodyIssues_prebound bound args)

theorem Argument.bodyIssues_prebound (bound : List Variable) :
    (args : List Argument) → Argument.bodyIssues (vs ++ later) (vs ++ bound) args
      = Issue.outside vs (Argument.bodyIssues later bound args)
  | [] => rfl
  | .term _ :: args => Argument.bodyIssues_prebound bound args
  | .expr _ :: args => Argument.bodyIssues_prebound bound args
  | .condition c :: args => by
    have hrest := Argument.bodyIssues_prebound (bound ++ c.binders) args
    rw [← List.append_assoc] at hrest
    show c.issues _ _ ++ Argument.bodyIssues _ _ args = Issue.outside vs (_ ++ _)
    rw [Issue.outside_append, Condition.issues_prebound bound c, hrest]

end

theorem Condition.issuesOfAll_prebound (cs : List Condition) :
    issuesOfAll (vs ++ later) (vs ++ bound) cs = Issue.outside vs (issuesOfAll later bound cs) := by
  induction cs generalizing bound with
  | nil => rfl
  | cons c cs ih =>
    show c.issues _ _ ++ issuesOfAll _ _ cs = Issue.outside vs (_ ++ _)
    rw [Issue.outside_append, issues_prebound, List.append_assoc, ih]

end Conditions

/-! ## 3. Rules -/

namespace Rule

/-- The rule with a tuple in front of its conditions. -/
def prebind (t : Tuple) (r : Rule) : Rule :=
  { r with conditions := .tuple t :: r.conditions }

/-- A tuple in front takes away the issues about its variables, whatever they are and wherever they come
from. The others stay as they are, in their order and as often as they are there. -/
theorem issues_prebind (t : Tuple) (r : Rule) :
    (r.prebind t).issues = r.issues.filter fun i => i.var ∉ t.vars := by
  have hconditions : Condition.issuesOfAll (r.prebind t).binders [] (r.prebind t).conditions
      = Issue.outside t.vars (Condition.issuesOfAll r.binders [] r.conditions) := by
    have hall := Condition.issuesOfAll_prebound t.vars r.binders [] r.conditions
    rw [List.append_nil] at hall
    exact hall
  have hconclusions : ((ascending (r.conclusions.flatMap Tuple.vars)).filter
        (· ∉ (r.prebind t).binders)).map Issue.conclusion
      = Issue.outside t.vars (((ascending (r.conclusions.flatMap Tuple.vars)).filter
        (· ∉ r.binders)).map Issue.conclusion) := by
    apply Issue.outside_map (fun _ => rfl)
    intro v
    rw [decide_eq_true_iff, decide_eq_true_iff, ← not_or, ← List.mem_append]
    rfl
  show Condition.issuesOfAll _ _ _ ++ _ = Issue.outside t.vars (_ ++ _)
  rw [Issue.outside_append, hconditions]
  exact congrArg _ hconclusions

/-- In `(not (size ?1) (if (< ?0 ?1)))` with `(size ?0)` behind it and the conclusion `(top ?0 ?2)`, both
issues about `?0` are gone once `(size ?0)` stands in front, and the one about `?2` is not. -/
example :
    let size (v : Nat) : Tuple := [.const (.symbol ⟨2⟩), .var ⟨v⟩]
    let less : Expr Term := .binary (.order .lt) (.leaf (.var ⟨0⟩)) (.leaf (.var ⟨1⟩))
    let r : Rule :=
      { conditions := [.negation [.tuple (size 1), .guard less], .tuple (size 0)]
        conclusions := [[.const (.symbol ⟨3⟩), .var ⟨0⟩, .var ⟨2⟩]] }
    r.issues = [.negation ⟨0⟩, .guard ⟨0⟩, .conclusion ⟨2⟩] ∧
      (r.prebind (size 0)).issues = [.conclusion ⟨2⟩] := by
  decide

end Rule

end ForwardChaining
