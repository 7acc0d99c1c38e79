import ForwardChaining.Proofs.Solving
import Mathlib.Data.List.Basic

/-!
# Precedence — which negations are reported as too early

A negation comes too early for a variable that nothing before it binds and that a later tuple binds,
where both may stand in its own conjunction or in an enclosing one. Such a negation is reported if some
condition of the rule itself binds the variable, and only then (`Rule.reports_negation_iff`): the later
tuples of a negated conjunction are not looked at.
-/

namespace ForwardChaining

/-! ## 1. Places in a conjunction -/

/-- Where a condition stands in a conjunction or in the negations in it. Before it are the conditions
before it in its own conjunction and those before the negations around it, and so on for those after
it. -/
inductive Stands : List Condition → List Condition → Condition → List Condition → Prop where
  | head (c : Condition) (cs : List Condition) : Stands (c :: cs) [] c cs
  | tail {cs before after : List Condition} {c : Condition} (k : Condition)
    (h : Stands cs before c after) : Stands (k :: cs) (k :: before) c after
  | inside {args : List Argument} {before after : List Condition} {c : Condition}
    (h : Stands (args.filterMap Argument.condition?) before c after) (cs : List Condition) :
    Stands (.form .negation args :: cs) before c (after ++ cs)

theorem Stands.append_right {cs before after : List Condition} {c : Condition}
    (h : Stands cs before c after) (ks : List Condition) : Stands (cs ++ ks) before c (after ++ ks) := by
  induction h with
  | head c cs => exact Stands.head c (cs ++ ks)
  | tail k _ ih => exact ih.tail k
  | inside h cs _ =>
    rw [List.append_assoc]
    exact h.inside (cs ++ ks)

theorem Stands.inside_negation {body before after : List Condition} {c : Condition}
    (h : Stands body before c after) (cs : List Condition) :
    Stands (.negation body :: cs) before c (after ++ cs) := by
  refine Stands.inside ?_ cs
  rwa [Condition.filterMap_condition?_map]

/-- Whether a conjunction has a negation with a variable that is bound neither before the conjunction
nor by the conditions before the negation. -/
def NegatesUnbound (bound : List Variable) (cs : List Condition) (v : Variable) : Prop :=
  ∃ before args after, Stands cs before (.form .negation args) after ∧ v ∈ Argument.negated args ∧
    v ∉ bound ++ before.flatMap Condition.binders

/-! ## 2. Reports -/

section Reports

variable {later bound : List Variable} {cs : List Condition} {v : Variable}

namespace NegatesUnbound

theorem append_right (h : NegatesUnbound bound cs v) (ks : List Condition) :
    NegatesUnbound bound (cs ++ ks) v := by
  obtain ⟨before, args, after, hstands, h⟩ := h
  exact ⟨before, args, after ++ ks, hstands.append_right ks, h⟩

theorem tail {k : Condition} (h : NegatesUnbound (bound ++ k.binders) cs v) :
    NegatesUnbound bound (k :: cs) v := by
  obtain ⟨before, args, after, hstands, hv, hbound⟩ := h
  refine ⟨k :: before, args, after, hstands.tail k, hv, ?_⟩
  rwa [List.flatMap_cons, ← List.append_assoc]

theorem inside {args : List Argument}
    (h : NegatesUnbound bound (args.filterMap Argument.condition?) v) :
    NegatesUnbound bound [.form .negation args] v := by
  obtain ⟨before, args', after, hstands, h⟩ := h
  exact ⟨before, args', _, hstands.inside [], h⟩

end NegatesUnbound

namespace Condition

/-- A negation is reported for the variables of its body, and with what is reported inside. -/
theorem mem_issues_negation_iff {args : List Argument} :
    Issue.negation v ∈ (form .negation args).issues later bound ↔
      (v ∈ Argument.negated args ∧ v ∉ bound ∧ v ∈ later) ∨
        Issue.negation v ∈ issuesOfAll later bound (args.filterMap Argument.condition?) := by
  have hhere : Issue.negation v ∈ ((Argument.negated args).toList.filter fun v =>
      v ∉ bound ∧ v ∈ later).map Issue.negation ↔
        v ∈ Argument.negated args ∧ v ∉ bound ∧ v ∈ later := by
    rw [List.mem_map_of_injective fun _ _ => Issue.negation.inj, List.mem_filter,
      VariableSet.mem_toList, decide_eq_true_iff]
  rw [issues, if_neg (by decide), if_pos rfl, List.mem_append, hhere, Argument.bodyIssues_eq]

theorem negation_notMem_issues {head : Symbol} {args : List Argument} (h : head ≠ .negation) :
    Issue.negation v ∉ (form head args).issues later bound := by
  rw [issues]
  by_cases hg : head = .guard
  · rw [if_pos hg, List.mem_map]
    rintro ⟨w, _, hw⟩
    cases hw
  · rw [if_neg hg, if_neg h]
    exact List.not_mem_nil

end Condition

mutual

theorem Condition.negatesUnbound_of_mem_issues (later bound : List Variable) (v : Variable) :
    (c : Condition) → Issue.negation v ∈ c.issues later bound →
      v ∈ later ∧ NegatesUnbound bound [c] v
  | .tuple _, h => nomatch h
  | .form head args, h => by
    by_cases hn : head = .negation
    · rw [hn] at h ⊢
      rcases Condition.mem_issues_negation_iff.1 h with ⟨hv, hbound, hlater⟩ | hbody
      · refine ⟨hlater, [], args, [], Stands.head _ _, hv, ?_⟩
        rwa [List.flatMap_nil, List.append_nil]
      · rw [← Argument.bodyIssues_eq] at hbody
        have ⟨hlater, hinside⟩ := Argument.negatesUnbound_of_mem_bodyIssues later bound v args hbody
        exact ⟨hlater, hinside.inside⟩
    · exact absurd h (Condition.negation_notMem_issues hn)

theorem Argument.negatesUnbound_of_mem_bodyIssues (later bound : List Variable) (v : Variable) :
    (args : List Argument) → Issue.negation v ∈ Argument.bodyIssues later bound args →
      v ∈ later ∧ NegatesUnbound bound (args.filterMap Argument.condition?) v
  | [], h => nomatch h
  | .term _ :: args, h => Argument.negatesUnbound_of_mem_bodyIssues later bound v args h
  | .expr _ :: args, h => Argument.negatesUnbound_of_mem_bodyIssues later bound v args h
  | .condition c :: args, h => by
    rcases List.mem_append.1 h with h | h
    · have ⟨hlater, hc⟩ := Condition.negatesUnbound_of_mem_issues later bound v c h
      exact ⟨hlater, hc.append_right (args.filterMap Argument.condition?)⟩
    · have ⟨hlater, hrest⟩ :=
        Argument.negatesUnbound_of_mem_bodyIssues later (bound ++ c.binders) v args h
      exact ⟨hlater, hrest.tail⟩

end

namespace Condition

theorem mem_issuesOfAll_of_stands {before after : List Condition} {args : List Argument}
    (h : Stands cs before (.form .negation args) after) (hv : v ∈ Argument.negated args)
    (hbound : v ∉ bound ++ before.flatMap binders) (hlater : v ∈ later) :
    Issue.negation v ∈ issuesOfAll later bound cs := by
  generalize hc : form .negation args = c at h
  -- on the way to the negation, `bound` grows by what the conditions before it bind
  induction h generalizing bound with
  | head c cs =>
    refine List.mem_append_left _ ?_
    rw [List.flatMap_nil, List.append_nil] at hbound
    rw [← hc]
    exact mem_issues_negation_iff.2 (Or.inl ⟨hv, hbound, hlater⟩)
  | tail k _ ih =>
    refine List.mem_append_right _ (ih ?_ hc)
    rwa [List.append_assoc, ← List.flatMap_cons]
  | inside _ cs ih =>
    exact List.mem_append_left _ (mem_issues_negation_iff.2 (Or.inr (ih hbound hc)))

theorem mem_issuesOfAll_negation_iff :
    Issue.negation v ∈ issuesOfAll later bound cs ↔ v ∈ later ∧ NegatesUnbound bound cs v := by
  refine ⟨fun h => ?_, fun ⟨hlater, before, args, after, hstands, hv, hbound⟩ =>
    mem_issuesOfAll_of_stands hstands hv hbound hlater⟩
  -- a conjunction is reported as the body of a negation is
  rw [← filterMap_condition?_map cs, ← Argument.bodyIssues_eq] at h
  have hbody := Argument.negatesUnbound_of_mem_bodyIssues later bound v _ h
  rwa [filterMap_condition?_map] at hbody

end Condition

end Reports

/-! ## 3. Rules -/

namespace Rule

/-- Whether a negation of the rule, at some depth, comes too early for a variable: nothing before it
binds the variable, and a later tuple does. -/
def NegatesEarly (r : Rule) (v : Variable) : Prop :=
  ∃ before args after, Stands r.conditions before (.form .negation args) after ∧
    v ∈ Argument.negated args ∧ v ∉ before.flatMap Condition.binders ∧
    ∃ t, .tuple t ∈ after ∧ v ∈ t.vars

/-- A negation is reported for the variables that are not bound before it and that a condition of the
rule itself, outside of all negations, binds. So a negation that comes too early is reported if the rule
itself binds the variable somewhere, and only then. -/
theorem reports_negation_iff (r : Rule) (v : Variable) :
    (Issue.negation v ∈ r.issues ↔ v ∈ r.binders ∧ NegatesUnbound [] r.conditions v) ∧
      (r.NegatesEarly v → (Issue.negation v ∈ r.issues ↔ v ∈ r.binders)) := by
  have hreported : Issue.negation v ∈ r.issues ↔
      v ∈ r.binders ∧ NegatesUnbound [] r.conditions v := by
    rw [issues, List.mem_append, Condition.mem_issuesOfAll_negation_iff]
    refine or_iff_left fun h => ?_
    -- the other issues are about conclusions
    obtain ⟨w, _, hw⟩ := List.mem_map.1 h
    cases hw
  refine ⟨hreported, fun ⟨before, args, after, hstands, hv, hbefore, _⟩ => ?_⟩
  rw [hreported]
  exact and_iff_left ⟨before, args, after, hstands, hv, hbefore⟩

/-- Before `(node ?1)`, the inner negation of `(not (not (dead ?1)) (edge ?1 ?0))` is reported. -/
theorem reports_negation_iff_nodes :
    let x : Term := .var ⟨0⟩
    let y : Term := .var ⟨1⟩
    let node : Condition := .tuple [.const (.symbol ⟨2⟩), y]
    let edge : Condition := .tuple [.const (.symbol ⟨3⟩), y, x]
    let dead : Condition := .tuple [.const (.symbol ⟨4⟩), y]
    let rule : Rule := { conditions := [.negation [.negation [dead], edge], node] }
    rule.NegatesEarly ⟨1⟩ ∧ Issue.negation ⟨1⟩ ∈ rule.issues := by
  intro x y node edge dead rule
  have hstands : Stands rule.conditions [] (.negation [dead]) [edge, node] :=
    (Stands.head (.negation [dead]) [edge]).inside_negation [node]
  have hearly : rule.NegatesEarly ⟨1⟩ :=
    ⟨[], [.condition dead], [edge, node], hstands, by decide, by decide, _, List.mem_cons_self,
      by decide⟩
  have hbound : (⟨1⟩ : Variable) ∈ rule.binders := by decide
  exact ⟨hearly, ((reports_negation_iff rule ⟨1⟩).2 hearly).2 hbound⟩

/-- In `(node ?0) (not (not (dead ?1)) (edge ?1 ?0))` the inner negation comes too early for `?1`, which
only the edge behind it binds. Nothing is reported. -/
theorem negatesEarly_and_not_reported :
    let x : Term := .var ⟨0⟩
    let y : Term := .var ⟨1⟩
    let node : Condition := .tuple [.const (.symbol ⟨2⟩), x]
    let edge : Condition := .tuple [.const (.symbol ⟨3⟩), y, x]
    let dead : Condition := .tuple [.const (.symbol ⟨4⟩), y]
    let rule : Rule :=
      { conditions := [node, .negation [.negation [dead], edge]]
        conclusions := [[.const (.symbol ⟨5⟩), x]] }
    rule.NegatesEarly ⟨1⟩ ∧ Issue.negation ⟨1⟩ ∉ rule.issues := by
  intro x y node edge dead rule
  have hstands : Stands rule.conditions [node] (.negation [dead]) [edge] :=
    ((Stands.head (.negation [dead]) [edge]).inside_negation []).tail node
  have hearly : rule.NegatesEarly ⟨1⟩ :=
    ⟨[node], [.condition dead], [edge], hstands, by decide, by decide, _, List.mem_cons_self,
      by decide⟩
  exact ⟨hearly, by decide⟩

end Rule

end ForwardChaining
