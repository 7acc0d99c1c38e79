import ForwardChaining.Proofs.Operands

/-!
# Sorts — guards that never meet a value of the wrong sort

Comparisons, connectives and negations yield booleans, terms and arithmetic yield atoms. The root of an
expression therefore tells what its values are. In a well-sorted expression every operator has operands
of the sorts that it works on. Such an expression never fails with a type mismatch under a binding that
gives no symbol to a term next to an arithmetic or ordering operator (`Expr.eval_sorted`).
-/

namespace ForwardChaining

/-! ## 1. Sorts of values and of expressions -/

inductive ValueSort where
  | atom
  | bool
deriving DecidableEq, Repr

def Value.sort : Value → ValueSort
  | atom _ => .atom
  | bool _ => .bool

namespace BinaryOp

/-- The sort of the values that an operator yields. -/
def sort : BinaryOp → ValueSort
  | arith _ => .atom
  | order _ => .bool
  | equality _ => .bool
  | logic _ => .bool

/-- Whether an operator works on operands of these sorts. -/
def Accepts : BinaryOp → ValueSort → ValueSort → Prop
  | arith _, s, t => s = .atom ∧ t = .atom
  | order _, s, t => s = .atom ∧ t = .atom
  | equality _, s, t => s = t
  | logic _, s, t => s = .bool ∧ t = .bool

instance : (op : BinaryOp) → (s t : ValueSort) → Decidable (op.Accepts s t)
  | arith _, s, t => inferInstanceAs (Decidable (s = .atom ∧ t = .atom))
  | order _, s, t => inferInstanceAs (Decidable (s = .atom ∧ t = .atom))
  | equality _, s, t => inferInstanceAs (Decidable (s = t))
  | logic _, s, t => inferInstanceAs (Decidable (s = .bool ∧ t = .bool))

end BinaryOp

/-- Whether a term is an integer, or a variable whose value is an integer if it has one. -/
def Term.IsNumeric (b : Binding) : Term → Prop
  | .const a => a.integer?.isSome = true
  | .var v => ∀ a ∈ b.get? v, a.integer?.isSome = true

instance (b : Binding) : (t : Term) → Decidable (t.IsNumeric b)
  | .const a => inferInstanceAs (Decidable (a.integer?.isSome = true))
  | .var v => inferInstanceAs (Decidable (∀ a ∈ b.get? v, a.integer?.isSome = true))

namespace Expr

/-- The sort of the values of an expression, by its root. -/
def sort : Expr Term → ValueSort
  | leaf _ => .atom
  | binary op _ _ => op.sort
  | not _ => .bool

/-- The expression and all its sub-expressions. -/
def nodes : Expr Term → List (Expr Term)
  | leaf t => [leaf t]
  | binary op left right => binary op left right :: (left.nodes ++ right.nodes)
  | not operand => not operand :: operand.nodes

/-- Whether the root of an expression has operands of the sorts that it works on. -/
def IsSortedAtRoot : Expr Term → Prop
  | leaf _ => True
  | binary op left right => op.Accepts left.sort right.sort
  | not operand => operand.sort = .bool

instance : (e : Expr Term) → Decidable e.IsSortedAtRoot
  | leaf _ => isTrue trivial
  | binary op left right => inferInstanceAs (Decidable (op.Accepts left.sort right.sort))
  | not operand => inferInstanceAs (Decidable (operand.sort = .bool))

def WellSorted (e : Expr Term) : Prop :=
  ∀ s ∈ e.nodes, s.IsSortedAtRoot

instance (e : Expr Term) : Decidable e.WellSorted :=
  inferInstanceAs (Decidable (∀ s ∈ e.nodes, s.IsSortedAtRoot))

def term? : Expr Term → Option Term
  | leaf t => some t
  | _ => none

/-- The terms directly under the root of an expression, if that is an operator that takes integers. -/
def countedTerms : Expr Term → List Term
  | binary op left right => if op.takesIntegers then [left, right].filterMap term? else []
  | _ => []

/-- Whether the terms directly under arithmetic and ordering operators are integers, or variables with an
integer or no value. -/
def TakesNumbers (b : Binding) (e : Expr Term) : Prop :=
  ∀ s ∈ e.nodes, ∀ t ∈ s.countedTerms, t.IsNumeric b

instance (b : Binding) (e : Expr Term) : Decidable (e.TakesNumbers b) :=
  inferInstanceAs (Decidable (∀ s ∈ e.nodes, ∀ t ∈ s.countedTerms, t.IsNumeric b))

end Expr

/-! ## 2. Values have the sort of their expression -/

section Values

variable {b : Binding} {e : Expr Term} {op : BinaryOp} {x y z : Value}

theorem BinaryOp.sort_of_settle (h : op.settle x = .ok z) : z.sort = op.sort := by
  cases op with
  | logic op =>
    obtain ⟨p, _, h⟩ := bind_eq_ok_iff.1 h
    cases h
    rfl
  | arith op => cases h
  | order op => cases h
  | equality op => cases h

theorem BinaryOp.isInteger_of_combine {op : ArithOp} (h : (arith op).combine x y = .ok z) :
    z.isInteger = true := by
  obtain ⟨i, _, h⟩ := bind_eq_ok_iff.1 h
  obtain ⟨j, _, h⟩ := bind_eq_ok_iff.1 h
  obtain ⟨k, _, rfl⟩ := ArithOp.value_eq_ok h
  rfl

theorem Value.sort_of_isInteger (h : x.isInteger = true) : x.sort = .atom := by
  obtain ⟨i, rfl⟩ := isInteger_iff.1 h
  rfl

theorem BinaryOp.sort_of_combine (h : op.combine x y = .ok z) : z.sort = op.sort := by
  cases op with
  | arith op => exact Value.sort_of_isInteger (isInteger_of_combine h)
  | order op =>
    obtain ⟨i, _, h⟩ := bind_eq_ok_iff.1 h
    obtain ⟨j, _, h⟩ := bind_eq_ok_iff.1 h
    cases h
    rfl
  | equality op =>
    obtain ⟨p, _, h⟩ := bind_eq_ok_iff.1 h
    cases h
    rfl
  | logic op =>
    obtain ⟨q, _, h⟩ := bind_eq_ok_iff.1 h
    cases h
    rfl

theorem Expr.eval_binary_eq_ok {l r : Expr Term} (h : (binary op l r).eval b = .ok z) :
    ∃ x, op.settle x = .ok z ∨ ∃ y, op.combine x y = .ok z := by
  rw [eval_binary] at h
  obtain ⟨x, _, h⟩ := bind_eq_ok_iff.1 h
  refine ⟨x, ?_⟩
  split at h
  · obtain ⟨y, _, h⟩ := bind_eq_ok_iff.1 h
    exact Or.inr ⟨y, h⟩
  · exact Or.inl h

theorem Expr.eval_leaf_eq_ok {t : Term} (h : (leaf t).eval b = .ok x) :
    ∃ a, t.ground b = .ok a ∧ x = .atom a := by
  cases ht : t.ground b with
  | ok a =>
    simp only [eval, ht] at h
    exact ⟨a, rfl, (Except.ok.inj h).symm⟩
  | error err =>
    simp only [eval, ht] at h
    cases h

theorem Expr.sort_of_eval (h : e.eval b = .ok x) : x.sort = e.sort := by
  cases e with
  | leaf t =>
    obtain ⟨a, _, rfl⟩ := eval_leaf_eq_ok h
    rfl
  | not e =>
    obtain ⟨y, _, h⟩ := bind_eq_ok_iff.1 h
    obtain ⟨p, _, h⟩ := bind_eq_ok_iff.1 h
    cases h
    rfl
  | binary op l r =>
    obtain ⟨y, h | ⟨z, h⟩⟩ := eval_binary_eq_ok h
    · exact BinaryOp.sort_of_settle h
    · exact BinaryOp.sort_of_combine h

theorem Term.isInteger_of_ground {t : Term} {a : Atom} (hnum : t.IsNumeric b)
    (h : t.ground b = .ok a) : (Value.atom a).isInteger = true := by
  have ha : a.integer?.isSome = true := by
    rcases ground_eq_ok_iff.1 h with rfl | ⟨v, rfl, hv⟩
    · exact hnum
    · exact hnum a hv
  cases a with
  | symbol s => cases ha
  | integer i => rfl

/-- Where terms are numeric, atoms are integers. -/
theorem Expr.isInteger_of_eval (hsort : e.sort = .atom) (hnum : ∀ t ∈ e.term?, t.IsNumeric b)
    (h : e.eval b = .ok x) : x.isInteger = true := by
  cases e with
  | leaf t =>
    obtain ⟨a, ha, rfl⟩ := eval_leaf_eq_ok h
    exact Term.isInteger_of_ground (hnum t rfl) ha
  | not e => cases hsort
  | binary op l r =>
    cases op with
    | arith op =>
      obtain ⟨y, h | ⟨z, h⟩⟩ := eval_binary_eq_ok h
      · cases h
      · exact BinaryOp.isInteger_of_combine h
    | order op => cases hsort
    | equality op => cases hsort
    | logic op => cases hsort

theorem Value.sort_ne_of_compareWith {op : EqualityOp} {err : EvalError}
    (h : x.compareWith op y = .error err) : x.sort ≠ y.sort := by
  cases x with
  | atom a =>
    cases y with
    | atom a' => cases h
    | bool q => exact ValueSort.noConfusion
  | bool p =>
    cases y with
    | atom a' => exact ValueSort.noConfusion
    | bool q => cases h

end Values

/-! ## 3. Well-sorted expressions -/

namespace Expr

variable {b : Binding} {e l r x : Expr Term} {asker : Asker} {demand : Demand}

theorem self_mem_nodes (e : Expr Term) : e ∈ e.nodes := by
  cases e <;> exact List.mem_cons_self

theorem nodes_subset_of_mem_operands (hx : x ∈ e.operands b) : x.nodes ⊆ e.nodes := by
  cases e with
  | leaf t => cases hx
  | not e =>
    rw [List.mem_singleton.1 hx]
    exact List.subset_cons_self _ _
  | binary op l r =>
    refine List.Subset.trans ?_ (List.subset_cons_self _ _)
    rcases mem_operands_binary_iff.1 hx with rfl | ⟨rfl, _⟩
    · exact List.subset_append_left _ _
    · exact List.subset_append_right _ _

section Operand

variable {op : BinaryOp} (hx : x ∈ (binary op l r).operands b)

include hx

theorem sort_of_accepts {s : ValueSort} (h : l.sort = s ∧ r.sort = s) : x.sort = s := by
  rcases mem_operands_binary_iff.1 hx with rfl | ⟨rfl, _⟩
  · exact h.1
  · exact h.2

theorem mem_countedTerms (hop : op.takesIntegers = true) {t : Term} (ht : t ∈ x.term?) :
    t ∈ (binary op l r).countedTerms := by
  have hlr : x ∈ [l, r] := List.mem_pair.2 ((mem_operands_binary_iff.1 hx).imp_right And.left)
  rw [countedTerms, if_pos hop]
  exact List.mem_filterMap.2 ⟨x, hlr, ht⟩

end Operand

/-- An expression whose root has operands of the sorts it works on gives rise to no type mismatch. -/
theorem not_raises_typeMismatch (hsorted : e.IsSortedAtRoot)
    (hnum : ∀ t ∈ e.countedTerms, t.IsNumeric b) :
    ¬ e.Raises b (.operation (.typeMismatch asker demand)) := by
  intro h
  cases h with
  | negating hx => cases (sort_of_eval hx).trans hsorted
  | connecting hx ha => cases (sort_of_eval ha).trans (sort_of_accepts hx hsorted)
  | comparing hl hr hcompare =>
    refine Value.sort_ne_of_compareWith hcompare ?_
    rw [sort_of_eval hl, sort_of_eval hr]
    exact hsorted
  | @counting op l r x y hop hx hy hinteger =>
    have hatoms : l.sort = .atom ∧ r.sort = .atom := by
      cases op with
      | arith op => exact hsorted
      | order op => exact hsorted
      | equality op => cases hop
      | logic op => cases hop
    have hyes := isInteger_of_eval (sort_of_accepts hx hatoms)
      (fun t ht => hnum t (mem_countedTerms hx hop ht)) hy
    rw [hyes] at hinteger
    cases hinteger

theorem eval_ne_typeMismatch (hw : e.WellSorted) (hn : e.TakesNumbers b) :
    e.eval b ≠ .error (.operation (.typeMismatch asker demand)) := by
  induction e using operands_induction b with
  | h e ih =>
    intro h
    rcases eval_eq_error_cases h with ⟨x, hx, hxerr⟩ | hraises
    · have hsub : x.nodes ⊆ e.nodes := nodes_subset_of_mem_operands hx
      exact ih x hx (fun s hs => hw s (hsub hs)) (fun s hs => hn s (hsub hs)) hxerr
    · have hself : e ∈ e.nodes := self_mem_nodes e
      exact not_raises_typeMismatch (hw e hself) (hn e hself) hraises

/-- The values of an expression have its sort, so no expression of the sort of atoms holds as a guard. A
well-sorted expression never fails with a type mismatch if the terms next to its arithmetic and ordering
operators are integers, or variables with an integer or no value. -/
theorem eval_sorted (b : Binding) (e : Expr Term) :
    (∀ x, e.eval b = .ok x → x.sort = e.sort) ∧
      (e.sort = .atom → ∀ p, e.holds b ≠ .ok p) ∧
      (e.WellSorted → e.TakesNumbers b →
        ∀ asker demand, e.eval b ≠ .error (.operation (.typeMismatch asker demand))) := by
  refine ⟨fun x h => sort_of_eval h, fun hsort p h => ?_, fun hw hn asker demand =>
    eval_ne_typeMismatch hw hn⟩
  obtain ⟨x, hx, h⟩ := bind_eq_ok_iff.1 h
  cases x with
  | atom a => cases h
  | bool q => cases (sort_of_eval hx).trans hsort

/-- `(and (!= ?0 gone) (not (< (+ ?1 1) ?2)))` where `?2` has no value: a guard that fails, but not with a
type mismatch. The sum in it is an integer, and as a guard it would not hold. -/
theorem eval_sorted_sum :
    let v (i : Nat) : Expr Term := .leaf (.var ⟨i⟩)
    let gone : Expr Term := .leaf (.const (.symbol ⟨3⟩))
    let sum : Expr Term := .binary (.arith .add) (v 1) (.leaf (.const (.integer 1)))
    let guard : Expr Term :=
      .binary (.logic .and) (.binary (.equality .ne) (v 0) gone) (.not (.binary (.order .lt) sum (v 2)))
    let b : Binding := ⟨⟨[(0, .symbol ⟨2⟩), (1, .integer 3)], by decide⟩⟩
    (guard.WellSorted ∧ guard.TakesNumbers b ∧ guard.eval b = .error (.unbound ⟨2⟩) ∧
      ∀ asker demand, guard.eval b ≠ .error (.operation (.typeMismatch asker demand))) ∧
    (sum.eval b = .ok (.atom (.integer 4)) ∧ sum.sort = .atom ∧ ∀ p, sum.holds b ≠ .ok p) := by
  intro v gone sum guard b
  have hguard : guard.WellSorted ∧ guard.TakesNumbers b := by decide +kernel
  have hunbound : guard.eval b = .error (.unbound ⟨2⟩) := by decide +kernel
  have hsum : sum.eval b = .ok (.atom (.integer 4)) := by decide +kernel
  have hsort : sum.sort = .atom := ((eval_sorted b sum).1 _ hsum).symm
  exact ⟨⟨hguard.1, hguard.2, hunbound, (eval_sorted b guard).2.2 hguard.1 hguard.2⟩,
    hsum, hsort, (eval_sorted b sum).2.1 hsort⟩

end Expr

end ForwardChaining
