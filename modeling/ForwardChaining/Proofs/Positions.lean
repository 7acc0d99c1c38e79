import ForwardChaining.Proofs.Evaluation
import ForwardChaining.Rule.Scoping
import Mathlib.Data.Set.Card

/-!
# Positions — how often a variable occurs in a rule

A position leads into a rule step by step, each step being the number of a part: a condition or a conclusion
first, then an argument, an operand or a term. The terms of a rule are what stands at its positions
(`Rule.termAt?`). One traversal counts the variables of a condition and another collects them; a variable is
counted as often as there are positions at which it stands, and collected if there is one. So what is counted,
what is collected and what is reported for a rule are about the same variables (`Rule.counts_exact`).
-/

namespace ForwardChaining

/-! ## 1. Terms by their positions -/

/-- A way into a part of a rule. -/
abbrev Position := List Nat

/-- What is found in a list of parts. The first step chooses the part. -/
def Position.inPart {α : Type} (find : α → Position → Option Term) (parts : List α) :
    Position → Option Term
  | [] => none
  | i :: p => parts[i]?.bind fun x => find x p

def Term.termAt? (t : Term) : Position → Option Term
  | [] => some t
  | _ :: _ => none

def Tuple.termAt? (t : Tuple) : Position → Option Term :=
  Position.inPart Term.termAt? t

def Expr.termAt? : Expr Term → Position → Option Term
  | leaf t, p => t.termAt? p
  | not e, 0 :: p => e.termAt? p
  | binary _ l _, 0 :: p => l.termAt? p
  | binary _ _ r, 1 :: p => r.termAt? p
  | _, _ => none

mutual

/-- The term that stands at a position of a condition. -/
def Condition.termAt? : Condition → Position → Option Term
  | .tuple t, p => t.termAt? p
  | .form _ args, p => Argument.termIn? args p

def Argument.termAt? : Argument → Position → Option Term
  | .term t, p => t.termAt? p
  | .condition c, p => c.termAt? p
  | .expr e, p => e.termAt? p

def Argument.termIn? : List Argument → Position → Option Term
  | [], _ => none
  | _ :: _, [] => none
  | a :: _, 0 :: p => a.termAt? p
  | _ :: args, (i + 1) :: p => Argument.termIn? args (i :: p)

end

/-- The term that stands at a position of a rule. The conclusions are numbered behind the conditions. -/
def Rule.termAt? (r : Rule) : Position → Option Term :=
  Position.inPart Condition.termAt? (r.conditions ++ r.conclusions.map .tuple)

theorem Argument.termIn?_eq (args : List Argument) :
    Argument.termIn? args = Position.inPart Argument.termAt? args := by
  funext p
  induction args generalizing p with
  | nil => cases p <;> rfl
  | cons a args ih =>
    cases p with
    | nil => rfl
    | cons i p =>
      cases i with
      | zero => rfl
      | succ i => exact ih (i :: p)

theorem Expr.termAt?_not (e : Expr Term) : (not e).termAt? = Position.inPart Expr.termAt? [e] := by
  funext p
  match p with
  | [] => rfl
  | 0 :: _ => rfl
  | (_ + 1) :: _ => rfl

theorem Expr.termAt?_binary (op : BinaryOp) (l r : Expr Term) :
    (binary op l r).termAt? = Position.inPart Expr.termAt? [l, r] := by
  funext p
  match p with
  | [] => rfl
  | 0 :: _ => rfl
  | 1 :: _ => rfl
  | (_ + 2) :: _ => rfl

/-! ## 2. The number of positions -/

/-- The positions at which a variable is found. -/
def Position.places (find : Position → Option Term) (v : Variable) : Set Position :=
  {p | find p = some (.var v)}

namespace Position

/-- The position of the same place when a part is put in front. -/
def shift : Position → Position
  | [] => []
  | i :: p => (i + 1) :: p

theorem shift_injective : Function.Injective shift := by
  intro p q h
  cases p with
  | nil =>
    cases q with
    | nil => rfl
    | cons j q => cases h
  | cons i p =>
    cases q with
    | nil => cases h
    | cons j q =>
      obtain ⟨hij, hpq⟩ := List.cons.inj h
      rw [Nat.succ.inj hij, hpq]

variable {α : Type} {find : α → Position → Option Term} {v : Variable}

theorem places_inPart_cons (x : α) (parts : List α) :
    places (inPart find (x :: parts)) v
      = List.cons 0 '' places (find x) v ∪ shift '' places (inPart find parts) v := by
  ext p
  cases p with
  | nil =>
    refine iff_of_false (fun h => by cases h) ?_
    rintro (⟨q, _, hq⟩ | ⟨q, hplace, hq⟩)
    · cases hq
    · cases q with
      | nil => cases hplace
      | cons j q => cases hq
  | cons i p =>
    cases i with
    | zero =>
      refine ⟨fun h => Or.inl ⟨p, h, rfl⟩, ?_⟩
      rintro (⟨q, hplace, hq⟩ | ⟨q, _, hq⟩)
      · cases hq
        exact hplace
      · cases q <;> cases hq
    | succ i =>
      refine ⟨fun h => Or.inr ⟨i :: p, h, rfl⟩, ?_⟩
      rintro (⟨q, _, hq⟩ | ⟨q, hplace, hq⟩)
      · cases hq
      · cases q with
        | nil => cases hq
        | cons j q =>
          cases hq
          exact hplace

/-- The positions in a list of parts are those in its parts. -/
theorem encard_places_inPart {vars : α → List Variable} {parts : List α}
    (h : ∀ x ∈ parts, (places (find x) v).encard = (vars x).count v) :
    (places (inPart find parts) v).encard = (parts.flatMap vars).count v := by
  induction parts with
  | nil =>
    have hnone : places (inPart find []) v = ∅ :=
      Set.eq_empty_iff_forall_notMem.2 fun p hp => by cases p <;> cases hp
    rw [hnone, Set.encard_empty]
    rfl
  | cons x parts ih =>
    obtain ⟨hx, hparts⟩ := List.forall_mem_cons.1 h
    have hdisjoint : Disjoint (List.cons 0 '' places (find x) v)
        (shift '' places (inPart find parts) v) := by
      rw [Set.disjoint_left]
      rintro _ ⟨p, _, rfl⟩ ⟨q, _, hq⟩
      cases q <;> cases hq
    calc
      (places (inPart find (x :: parts)) v).encard
        = (places (find x) v).encard + (places (inPart find parts) v).encard := by
          rw [places_inPart_cons, Set.encard_union_eq hdisjoint, (List.cons_injective).injOn.encard_image,
            shift_injective.injOn.encard_image]
      _ = ((vars x).count v : ℕ∞) + ((parts.flatMap vars).count v : ℕ∞) := by rw [hx, ih hparts]
      _ = ((x :: parts).flatMap vars).count v := by
          rw [List.flatMap_cons, List.count_append, Nat.cast_add]

end Position

open Position

variable {v : Variable}

theorem Term.encard_places (t : Term) : (places t.termAt? v).encard = t.var?.toList.count v := by
  by_cases h : t = .var v
  · have hone : places t.termAt? v = {[]} := by
      ext p
      cases p with
      | nil => exact iff_of_true (congrArg some h) rfl
      | cons i p => exact iff_of_false (fun hp => by cases hp) (fun hp => by cases hp)
    rw [hone, Set.encard_singleton, h]
    simp only [var?, Option.toList_some, List.count_singleton_self, Nat.cast_one]
  · have hnone : places t.termAt? v = ∅ := by
      refine Set.eq_empty_iff_forall_notMem.2 fun p hp => ?_
      cases p with
      | nil => exact h (Option.some.inj hp)
      | cons i p => cases hp
    have hcount : t.var?.toList.count v = 0 := by
      refine List.count_eq_zero.2 fun hv => h ?_
      cases t with
      | const a => cases hv
      | var w => rw [List.mem_singleton.1 hv]
    rw [hnone, hcount, Set.encard_empty, Nat.cast_zero]

theorem Tuple.encard_places (t : Tuple) : (places t.termAt? v).encard = t.vars.count v := by
  have hvars : t.vars = t.flatMap fun u => u.var?.toList := List.filterMap_eq_flatMap_toList ..
  rw [hvars]
  exact encard_places_inPart fun u _ => u.encard_places

theorem Expr.encard_places (e : Expr Term) : (places e.termAt? v).encard = e.vars.count v := by
  induction e with
  | leaf t =>
    rw [vars_leaf]
    exact t.encard_places
  | not e ih =>
    have hparts : (places (inPart Expr.termAt? [e]) v).encard = ([e].flatMap Expr.vars).count v :=
      encard_places_inPart (List.forall_mem_singleton.2 ih)
    rw [List.flatMap_singleton] at hparts
    rw [termAt?_not]
    exact hparts
  | binary op l r ihl ihr =>
    have hparts : (places (inPart Expr.termAt? [l, r]) v).encard = ([l, r].flatMap Expr.vars).count v :=
      encard_places_inPart (List.forall_mem_cons.2 ⟨ihl, List.forall_mem_singleton.2 ihr⟩)
    rw [List.flatMap_cons, List.flatMap_singleton, ← vars_binary op] at hparts
    rw [termAt?_binary]
    exact hparts

mutual

theorem Condition.encard_places (v : Variable) :
    (c : Condition) → (places c.termAt? v).encard = c.vars.count v
  | .tuple t => t.encard_places
  | .form _ args => by
    have hparts : (places (inPart Argument.termAt? args) v).encard = (args.flatMap Argument.vars).count v :=
      encard_places_inPart (Argument.encard_places_of_mem v args)
    rw [← Argument.termIn?_eq, ← Argument.varsOfAll_eq_flatMap] at hparts
    exact hparts

theorem Argument.encard_places_of_mem (v : Variable) :
    (args : List Argument) → ∀ a ∈ args, (places a.termAt? v).encard = a.vars.count v
  | [] => fun _ ha => absurd ha List.not_mem_nil
  | .term t :: args => List.forall_mem_cons.2 ⟨t.encard_places, Argument.encard_places_of_mem v args⟩
  | .expr e :: args => List.forall_mem_cons.2 ⟨e.encard_places, Argument.encard_places_of_mem v args⟩
  | .condition c :: args =>
    List.forall_mem_cons.2 ⟨Condition.encard_places v c, Argument.encard_places_of_mem v args⟩

end

theorem Condition.mem_vars_iff_exists_position {c : Condition} :
    v ∈ c.vars ↔ ∃ p, c.termAt? p = some (.var v) := by
  have hcount : c.vars.count v = 0 ↔ places c.termAt? v = ∅ := by
    rw [← Set.encard_eq_zero, encard_places, Nat.cast_eq_zero]
  rw [← List.count_pos_iff, Nat.pos_iff_ne_zero, Ne, hcount, ← Ne, ← Set.nonempty_iff_ne_empty]
  rfl

theorem Rule.encard_places (r : Rule) : (places r.termAt? v).encard = r.vars.count v := by
  have hparts : (places r.termAt? v).encard
      = ((r.conditions ++ r.conclusions.map Condition.tuple).flatMap Condition.vars).count v :=
    encard_places_inPart fun c _ => c.encard_places v
  rw [hparts, List.flatMap_append, List.flatMap_map]
  rfl

/-! ## 3. Counting and collecting -/

namespace Tally

theorem getD_get?_countAll (m : Tally) (vs : List Variable) (v : Variable) :
    ((m.countAll vs).get? v.ordinal).getD 0 = (m.get? v.ordinal).getD 0 + vs.count v := by
  induction vs generalizing m with
  | nil => rfl
  | cons w vs ih =>
    show (((m.count w).countAll vs).get? v.ordinal).getD 0 = _
    rw [ih, count, OrdinalMap.get?_insert]
    by_cases h : w = v
    · rw [h, if_pos rfl, List.count_cons_self, Option.getD_some]
      omega
    · have hordinal : v.ordinal ≠ w.ordinal := fun he => h (Variable.ordinal_inj.1 he).symm
      rw [if_neg hordinal, List.count_cons_of_ne h]

theorem isSome_get?_countAll (m : Tally) (vs : List Variable) (v : Variable) :
    ((m.countAll vs).get? v.ordinal).isSome ↔ (m.get? v.ordinal).isSome ∨ v ∈ vs := by
  induction vs generalizing m with
  | nil => exact (or_iff_left List.not_mem_nil).symm
  | cons w vs ih =>
    show (((m.count w).countAll vs).get? v.ordinal).isSome ↔ _
    rw [ih, count, OrdinalMap.get?_insert, List.mem_cons]
    by_cases h : v = w
    · rw [h, if_pos rfl]
      exact iff_of_true (Or.inl rfl) (Or.inr (Or.inl rfl))
    · rw [if_neg (mt Variable.ordinal_inj.1 h), or_iff_right h]

theorem mem_keys_countAll {vs : List Variable} {v : Variable} :
    v.ordinal ∈ (countAll ∅ vs).keys ↔ v ∈ vs := by
  rw [OrdinalMap.mem_keys_iff, isSome_get?_countAll]
  exact or_iff_right Bool.false_ne_true

/-- A tally has the variables that have been counted with the numbers of their occurrences, and no others. -/
theorem get?_countAll_eq_some_iff {vs : List Variable} {v : Variable} {n : Nat} :
    (countAll ∅ vs).get? v.ordinal = some n ↔ 1 ≤ n ∧ vs.count v = n := by
  have hcount := getD_get?_countAll ∅ vs v
  have hmem := @mem_keys_countAll vs v
  rw [OrdinalMap.get?_empty, Option.getD_none, Nat.zero_add] at hcount
  rw [OrdinalMap.mem_keys_iff, ← List.count_pos_iff] at hmem
  cases hget : (countAll ∅ vs).get? v.ordinal with
  | none =>
    rw [hget] at hcount
    refine iff_of_false (fun h => by cases h) fun h => ?_
    have hn : n = 0 := h.2.symm.trans hcount.symm
    rw [hn] at h
    cases h.1
  | some k =>
    rw [hget, Option.getD_some] at hcount
    rw [hget, ← hcount] at hmem
    rw [Option.some.injEq, ← hcount]
    exact (and_iff_right_of_imp fun h => h ▸ hmem.1 rfl).symm

theorem countAll_perm {vs ws : List Variable} (h : vs.Perm ws) : countAll ∅ vs = countAll ∅ ws := by
  refine OrdinalMap.ext_get? fun k => Option.ext fun n => ?_
  rw [get?_countAll_eq_some_iff (v := ⟨k⟩), get?_countAll_eq_some_iff (v := ⟨k⟩), h.count_eq]

end Tally

theorem OrdinalMap.keys_ascending {α : Type} (m : OrdinalMap α) : m.keys.Pairwise (· < ·) :=
  List.pairwise_map.2 m.ascending

/-- What has been added to a set is in it as what has been counted is in a tally. -/
theorem VariableSet.toList_insertAll (vs : List Variable) :
    (insertAll ∅ vs).toList = (Tally.countAll ∅ vs).keys.map Variable.mk := by
  refine congrArg (List.map Variable.mk) ?_
  refine (OrdinalMap.keys_ascending _).eq_of_mem_iff (OrdinalMap.keys_ascending _) fun k => ?_
  have hset : k ∈ (insertAll ∅ vs).ordinals.keys ↔ (⟨k⟩ : Variable) ∈ vs :=
    (OrdinalMap.mem_keys_iff _ k).trans (mem_insertAll_empty (v := ⟨k⟩))
  rw [hset, Tally.mem_keys_countAll (v := ⟨k⟩)]

namespace Condition

theorem mem_collect_iff {c : Condition} : v ∈ c.collect ∅ ↔ v ∈ c.vars := by
  rw [collect_eq, VariableSet.mem_insertAll_empty]

/-- The two traversals of a condition find the same variables. -/
theorem toList_collect (c : Condition) : (c.collect ∅).toList = (c.tally ∅).keys.map Variable.mk := by
  rw [collect_eq, tally_eq, VariableSet.toList_insertAll]

theorem get?_tally_eq_some_iff {c : Condition} {n : Nat} :
    (c.tally ∅).get? v.ordinal = some n ↔ 1 ≤ n ∧ {p | c.termAt? p = some (.var v)}.encard = n := by
  rw [tally_eq, Tally.get?_countAll_eq_some_iff]
  refine and_congr_right fun _ => ?_
  show _ ↔ (places c.termAt? v).encard = n
  rw [encard_places, Nat.cast_inj]

end Condition

/-! ## 4. Reports -/

section Reports

variable {later bound : List Variable} {args : List Argument}

/-- Arguments of one kind have only variables that the arguments have. -/
theorem Argument.flatMap_filterMap_subset_varsOfAll {α : Type} {kind? : Argument → Option α}
    {vars : α → List Variable} (h : ∀ a x, kind? a = some x → vars x = a.vars) (args : List Argument) :
    (args.filterMap kind?).flatMap vars ⊆ varsOfAll args := by
  intro v hv
  obtain ⟨x, hx, hvx⟩ := List.mem_flatMap.1 hv
  obtain ⟨a, ha, hax⟩ := List.mem_filterMap.1 hx
  rw [varsOfAll_eq_flatMap, List.mem_flatMap]
  exact ⟨a, ha, h a x hax ▸ hvx⟩

theorem Argument.vars_of_expr?_eq_some (a : Argument) (e : Expr Term) (h : a.expr? = some e) :
    e.vars = a.vars := by
  cases a with
  | expr e' =>
    cases h
    rfl
  | term t => cases h
  | condition c => cases h

theorem Argument.vars_of_condition?_eq_some (a : Argument) (c : Condition) (h : a.condition? = some c) :
    c.vars = a.vars := by
  cases a with
  | condition c' =>
    cases h
    rfl
  | term t => cases h
  | expr e => cases h

theorem Argument.mem_varsOfAll_of_mem_guarded {v : Variable} (h : v ∈ guarded args) : v ∈ varsOfAll args :=
  flatMap_filterMap_subset_varsOfAll vars_of_expr?_eq_some args (mem_guarded.1 h)

theorem Argument.mem_varsOfAll_of_mem_negated {v : Variable} (h : v ∈ negated args) : v ∈ varsOfAll args :=
  flatMap_filterMap_subset_varsOfAll vars_of_condition?_eq_some args (mem_negated.1 h)

theorem Condition.var_mem_of_mem_issues_form {head : Symbol}
    (hbody : ∀ i ∈ Argument.bodyIssues later bound args, i.var ∈ Argument.varsOfAll args) :
    ∀ i ∈ (form head args).issues later bound, i.var ∈ (form head args).vars := by
  intro i hi
  rw [issues] at hi
  split at hi
  · obtain ⟨v, hv, rfl⟩ := List.mem_map.1 hi
    exact Argument.mem_varsOfAll_of_mem_guarded (VariableSet.mem_toList.1 (List.mem_filter.1 hv).1)
  · split at hi
    · rcases List.mem_append.1 hi with hi | hi
      · obtain ⟨v, hv, rfl⟩ := List.mem_map.1 hi
        exact Argument.mem_varsOfAll_of_mem_negated (VariableSet.mem_toList.1 (List.mem_filter.1 hv).1)
      · exact hbody i hi
    · cases hi

mutual

/-- What is reported for a condition, at any depth, is about variables that occur in it. -/
theorem Condition.var_mem_of_mem_issues (later bound : List Variable) :
    (c : Condition) → ∀ i ∈ c.issues later bound, i.var ∈ c.vars
  | .tuple _ => fun _ hi => absurd hi List.not_mem_nil
  | .form _ args =>
    Condition.var_mem_of_mem_issues_form (Argument.var_mem_of_mem_bodyIssues later bound args)

theorem Argument.var_mem_of_mem_bodyIssues (later bound : List Variable) :
    (args : List Argument) → ∀ i ∈ Argument.bodyIssues later bound args, i.var ∈ Argument.varsOfAll args
  | [] => fun _ hi => absurd hi List.not_mem_nil
  | .term _ :: args => fun i hi =>
    List.mem_append_right _ (Argument.var_mem_of_mem_bodyIssues later bound args i hi)
  | .expr _ :: args => fun i hi =>
    List.mem_append_right _ (Argument.var_mem_of_mem_bodyIssues later bound args i hi)
  | .condition c :: args => fun i hi =>
    (List.mem_append.1 hi).elim
      (fun hi => List.mem_append_left _ (Condition.var_mem_of_mem_issues later bound c i hi))
      (fun hi => List.mem_append_right _
        (Argument.var_mem_of_mem_bodyIssues later (bound ++ c.binders) args i hi))

end

theorem Condition.var_mem_of_mem_issuesOfAll {cs : List Condition} :
    ∀ i ∈ issuesOfAll later bound cs, i.var ∈ cs.flatMap vars := by
  induction cs generalizing bound with
  | nil => exact fun _ hi => absurd hi List.not_mem_nil
  | cons c cs ih =>
    intro i hi
    rw [List.flatMap_cons]
    rcases List.mem_append.1 hi with hi | hi
    · exact List.mem_append_left _ (var_mem_of_mem_issues later bound c i hi)
    · exact List.mem_append_right _ (ih i hi)

end Reports

/-! ## 5. Rules -/

namespace Rule

variable {r : Rule}

theorem var_mem_vars_of_mem_issues {i : Issue} (h : i ∈ r.issues) : i.var ∈ r.vars := by
  rcases List.mem_append.1 h with h | h
  · exact List.mem_append_left _ (Condition.var_mem_of_mem_issuesOfAll i h)
  · obtain ⟨v, hv, rfl⟩ := List.mem_map.1 h
    exact List.mem_append_right _ (mem_ascending.1 (List.mem_filter.1 hv).1)

theorem tally_eq (r : Rule) : r.tally = Tally.countAll ∅ r.vars := by
  simp only [tally, Condition.tally_eq, Tuple.tally]
  rw [vars, Tally.countAll_append, Tally.countAll, Tally.countAll, List.foldl_flatMap, List.foldl_flatMap]
  rfl

theorem mem_counts_iff {v : Variable} {n : Nat} : (v, n) ∈ r.counts ↔ 1 ≤ n ∧ r.vars.count v = n := by
  rw [← Tally.get?_countAll_eq_some_iff, ← tally_eq, ← OrdinalMap.mem_entries_iff, counts, List.mem_map]
  constructor
  · rintro ⟨p, hp, he⟩
    cases he
    exact hp
  · intro h
    exact ⟨(v.ordinal, n), h, rfl⟩

theorem mem_keys_counts_iff {v : Variable} : v ∈ r.counts.map (·.1) ↔ v ∈ r.vars := by
  rw [List.mem_map, ← List.count_pos_iff]
  constructor
  · rintro ⟨⟨_, n⟩, hn, rfl⟩
    obtain ⟨hpos, hcount⟩ := mem_counts_iff.1 hn
    exact hcount ▸ hpos
  · intro h
    exact ⟨(v, _), mem_counts_iff.2 ⟨h, rfl⟩, rfl⟩

theorem counts_ascending (r : Rule) : r.counts.Pairwise fun p q => p.1.ordinal < q.1.ordinal :=
  List.pairwise_map.2 r.tally.ascending

/-- The number beside a variable in the counts, and 0 if it has no entry. -/
def count (r : Rule) (v : Variable) : Nat :=
  (r.counts.lookup v).getD 0

theorem lookup_counts (r : Rule) (v : Variable) : r.counts.lookup v = r.tally.get? v.ordinal := by
  rw [counts, OrdinalMap.get?]
  induction r.tally.entries with
  | nil => rfl
  | cons p entries ih =>
    have hkey : (v == ⟨p.1⟩) = (v.ordinal == p.1) := by
      rw [Bool.eq_iff_iff, beq_iff_eq, beq_iff_eq, ← Variable.ordinal_inj]
    rw [List.map_cons, List.lookup_cons, List.lookup_cons, hkey, ih]

theorem count_eq (r : Rule) (v : Variable) : r.count v = r.vars.count v := by
  rw [count, lookup_counts, tally_eq, Tally.getD_get?_countAll]
  exact Nat.zero_add _

theorem vars_perm {r' : Rule} (hconditions : r.conditions.Perm r'.conditions)
    (hconclusions : r.conclusions.Perm r'.conclusions) : r.vars.Perm r'.vars :=
  (hconditions.flatMap_right _).append (hconclusions.flatMap_right _)

/-- The rule with the conditions of two rules and the conclusions of both. -/
def join (r r' : Rule) : Rule where
  conditions := r.conditions ++ r'.conditions
  conclusions := r.conclusions ++ r'.conclusions

theorem count_join (r r' : Rule) (v : Variable) : (r.join r').count v = r.count v + r'.count v := by
  simp only [count_eq, join, vars, List.flatMap_append, List.count_append]
  omega

theorem mem_uniqueVariables_iff {v : Variable} : v ∈ r.uniqueVariables ↔ (v, 1) ∈ r.counts := by
  rw [uniqueVariables, List.mem_map]
  constructor
  · rintro ⟨⟨_, n⟩, hn, rfl⟩
    obtain ⟨hmem, hone⟩ := List.mem_filter.1 hn
    exact of_decide_eq_true hone ▸ hmem
  · intro h
    exact ⟨(v, 1), List.mem_filter.2 ⟨h, rfl⟩, rfl⟩

/-- A variable is counted as often as there are positions at which it stands, in the conditions at any depth
and in the conclusions, and has no entry if there is none; in a condition alone it is counted so too. What is
collected from a condition is what stands at its positions, and the same as what is counted there. So the entries
are for the variables that are collected from the conditions and those of the conclusions, each once, and all
that is reported is about some of them; the variables that occur once are those with the count 1. Neither the
order of the conditions nor that of the conclusions matters, and the counts of two rules add up when they are
put together. -/
theorem counts_exact (r : Rule) :
    (∀ v n, (v, n) ∈ r.counts ↔ 1 ≤ n ∧ {p | r.termAt? p = some (.var v)}.encard = n) ∧
    (∀ (c : Condition) (v : Variable) (n : Nat), (c.tally ∅).get? v.ordinal = some n ↔
      1 ≤ n ∧ {p | c.termAt? p = some (.var v)}.encard = n) ∧
    (∀ (c : Condition) v, v ∈ c.collect ∅ ↔ ∃ p, c.termAt? p = some (.var v)) ∧
    (∀ c : Condition, (c.collect ∅).toList = (c.tally ∅).keys.map Variable.mk) ∧
    (r.counts.Pairwise fun p q => p.1.ordinal < q.1.ordinal) ∧
    (∀ v, v ∈ r.counts.map (·.1) ↔
      (∃ c ∈ r.conditions, v ∈ c.collect ∅) ∨ ∃ t ∈ r.conclusions, v ∈ t.vars) ∧
    (∀ i ∈ r.issues, i.var ∈ r.counts.map (·.1)) ∧
    (∀ v, v ∈ r.uniqueVariables ↔ (v, 1) ∈ r.counts) ∧
    (∀ r' : Rule, r.conditions.Perm r'.conditions → r.conclusions.Perm r'.conclusions →
      r.counts = r'.counts) ∧
    ∀ (r' : Rule) (v : Variable), (r.join r').count v = r.count v + r'.count v := by
  refine ⟨fun v n => ?_, fun c v n => Condition.get?_tally_eq_some_iff, fun c v => ?_,
    Condition.toList_collect, r.counts_ascending, fun v => ?_, fun i hi => ?_,
    fun v => mem_uniqueVariables_iff, fun r' hconditions hconclusions => ?_, r.count_join⟩
  · rw [mem_counts_iff]
    refine and_congr_right fun _ => ?_
    show _ ↔ (Position.places r.termAt? v).encard = n
    rw [encard_places, Nat.cast_inj]
  · rw [Condition.mem_collect_iff, Condition.mem_vars_iff_exists_position]
  · rw [mem_keys_counts_iff, vars, List.mem_append, List.mem_flatMap, List.mem_flatMap]
    simp only [Condition.mem_collect_iff]
  · exact mem_keys_counts_iff.2 (var_mem_vars_of_mem_issues hi)
  · rw [counts, counts, tally_eq, tally_eq, Tally.countAll_perm (vars_perm hconditions hconclusions)]

/-- In `(size ?0) (not (size ?1) (if (< ?0 ?1))) => (top ?0)` the last operand of the guard is the second
occurrence of `?1`. -/
example :
    let size (v : Nat) : Condition := .tuple [.const (.symbol ⟨2⟩), .var ⟨v⟩]
    let less : Expr Term := .binary (.order .lt) (.leaf (.var ⟨0⟩)) (.leaf (.var ⟨1⟩))
    let r : Rule :=
      { conditions := [size 0, .negation [size 1, .guard less]]
        conclusions := [[.const (.symbol ⟨3⟩), .var ⟨0⟩]] }
    r.counts = [(⟨0⟩, 3), (⟨1⟩, 2)] ∧ r.termAt? [1, 1, 0, 1] = some (.var ⟨1⟩) := by
  decide

end Rule

end ForwardChaining
