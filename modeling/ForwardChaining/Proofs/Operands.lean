import ForwardChaining.Proofs.Evaluation

/-!
# Operands — where the error of an expression arises

An expression fails with the error of one of its operands, or it gives rise to an error itself, for one
of the reasons that `Expr.Raises` lists. Only the operands count that are evaluated: the right one only
where the left one calls for it. So the error of an expression is that of the first sub-expression that
fails, and this one gives rise to it (`Expr.firstFailure_cases`).
-/

namespace ForwardChaining

/-! ## 1. Left operand, right operand -/

namespace BinaryOp

/-- Whether an operator takes integers only. -/
def takesIntegers : BinaryOp → Bool
  | arith _ => true
  | order _ => true
  | equality _ => false
  | logic _ => false

/-- Whether an operator goes on to its right operand after the left one had a value. -/
def asksRight : BinaryOp → Value → Bool
  | arith _, x => x.isInteger
  | order _, x => x.isInteger
  | equality _, _ => true
  | logic op, .bool p => p ≠ op.decisive
  | logic _, .atom _ => false

/-- What an operator makes of the left operand alone, where it does not go on to the right one. -/
def settle (op : BinaryOp) (x : Value) : Except EvalError Value :=
  match op with
  | logic op => do
    let p ← x.truth (.binary (.logic op))
    return .bool p
  | op => .error (.operation (.typeMismatch (.binary op) .integer))

/-- What an operator makes of both operands. -/
def combine (op : BinaryOp) (x y : Value) : Except EvalError Value :=
  match op with
  | logic op => do
    let q ← y.truth (.binary (.logic op))
    return .bool q
  | equality op => do
    let p ← x.compareWith op y
    return .bool p
  | order op => do
    let i ← x.number (.binary (.order op))
    let j ← y.number (.binary (.order op))
    return .bool (op.holds i j)
  | arith op => do
    let i ← x.number (.binary (.arith op))
    let j ← y.number (.binary (.arith op))
    op.value i j

end BinaryOp

namespace Expr

/-- Operands are evaluated from the left, and the right one only where it is asked for. -/
theorem eval_binary (b : Binding) (op : BinaryOp) (l r : Expr Term) :
    (binary op l r).eval b = l.eval b >>= fun x =>
      if op.asksRight x then r.eval b >>= op.combine x else op.settle x := by
  cases op with
  | equality op => rfl
  | order op =>
    refine congrArg (l.eval b >>= ·) (funext fun x => ?_)
    cases x with
    | bool p => rfl
    | atom a => cases a <;> rfl
  | arith op =>
    refine congrArg (l.eval b >>= ·) (funext fun x => ?_)
    cases x with
    | bool p => rfl
    | atom a => cases a <;> rfl
  | logic op =>
    refine congrArg (l.eval b >>= ·) (funext fun x => ?_)
    cases x with
    | atom a => rfl
    | bool p => cases op <;> cases p <;> rfl

variable {b : Binding} {e l r x : Expr Term} {op : BinaryOp} {err : EvalError}

/-- The operands that the evaluation of an expression goes to, from the left. -/
def operands (b : Binding) : Expr Term → List (Expr Term)
  | leaf _ => []
  | not operand => [operand]
  | binary op left right =>
    match left.eval b with
    | .ok x => if op.asksRight x then [left, right] else [left]
    | .error _ => [left]

theorem left_mem_operands : l ∈ (binary op l r).operands b := by
  rw [operands]
  split
  · split <;> exact List.mem_cons_self
  · exact List.mem_cons_self

theorem mem_operands_binary_iff :
    x ∈ (binary op l r).operands b ↔
      x = l ∨ x = r ∧ ∃ y, l.eval b = .ok y ∧ op.asksRight y = true := by
  rw [operands]
  cases h : l.eval b with
  | error e => simp only [List.mem_singleton, reduceCtorEq, false_and, exists_false, and_false, or_false]
  | ok y =>
    simp only [Except.ok.injEq, exists_eq_left']
    split
    · next hask => simp only [List.mem_pair, hask, and_true]
    · next hask => simp only [List.mem_singleton, hask, Bool.false_eq_true, and_false, or_false]

/-- An expression fails as any of its operands does. -/
theorem eval_of_mem_operands (hx : x ∈ e.operands b) (h : x.eval b = .error err) :
    e.eval b = .error err := by
  cases e with
  | leaf t => cases hx
  | not e =>
    cases List.mem_singleton.1 hx
    exact bind_eq_error_iff.2 (Or.inl h)
  | binary op l r =>
    rw [eval_binary, bind_eq_error_iff]
    rcases mem_operands_binary_iff.1 hx with rfl | ⟨rfl, y, hl, hask⟩
    · exact Or.inl h
    · refine Or.inr ⟨y, hl, ?_⟩
      rw [if_pos hask]
      exact bind_eq_error_iff.2 (Or.inl h)

/-- Induction on the expressions that an evaluation goes to. -/
theorem operands_induction (b : Binding) {P : Expr Term → Prop}
    (h : ∀ e, (∀ x ∈ e.operands b, P x) → P e) (e : Expr Term) : P e := by
  induction e with
  | leaf t => exact h _ fun x hx => nomatch hx
  | not e ih =>
    refine h _ fun x hx => ?_
    rw [List.mem_singleton.1 hx]
    exact ih
  | binary op l r ihl ihr =>
    refine h _ fun x hx => ?_
    rcases mem_operands_binary_iff.1 hx with rfl | ⟨rfl, _⟩
    · exact ihl
    · exact ihr

/-! ## 2. The errors of an expression itself -/

/-- The errors to which an expression gives rise, where its operands have values. -/
inductive Raises (b : Binding) : Expr Term → EvalError → Prop where
  | unbound {v : Variable} (h : ¬ b.isBound v) : Raises b (leaf (.var v)) (.unbound v)
  | negating {e : Expr Term} {a : Atom} (h : e.eval b = .ok (.atom a)) :
    Raises b (not e) (.operation (.typeMismatch .not .boolean))
  | connecting {op : LogicOp} {l r x : Expr Term} {a : Atom}
    (hx : x ∈ (binary (.logic op) l r).operands b) (h : x.eval b = .ok (.atom a)) :
    Raises b (binary (.logic op) l r) (.operation (.typeMismatch (.binary (.logic op)) .boolean))
  | comparing {op : EqualityOp} {l r : Expr Term} {x y : Value} {err : EvalError}
    (hl : l.eval b = .ok x) (hr : r.eval b = .ok y) (h : x.compareWith op y = .error err) :
    Raises b (binary (.equality op) l r) err
  | counting {op : BinaryOp} {l r x : Expr Term} {y : Value} (hop : op.takesIntegers = true)
    (hx : x ∈ (binary op l r).operands b) (h : x.eval b = .ok y) (hy : y.isInteger = false) :
    Raises b (binary op l r) (.operation (.typeMismatch (.binary op) .integer))
  | computing {op : ArithOp} {l r : Expr Term} {i j : Integer}
    (hl : l.eval b = .ok (.atom (.integer i))) (hr : r.eval b = .ok (.atom (.integer j)))
    (h : op.apply i j = none) : Raises b (binary (.arith op) l r) (.operation (.arithmetic op))

theorem raises_of_settle {x : Value} (hl : l.eval b = .ok x) (hask : op.asksRight x = false)
    (h : op.settle x = .error err) : (binary op l r).Raises b err := by
  have hcounting (hop : op.takesIntegers = true) (hx : x.isInteger = false) :
      (binary op l r).Raises b (.operation (.typeMismatch (.binary op) .integer)) :=
    .counting hop left_mem_operands hl hx
  cases op with
  | equality op => cases hask
  | order op =>
    cases h
    exact hcounting rfl hask
  | arith op =>
    cases h
    exact hcounting rfl hask
  | logic op =>
    cases x with
    | bool p => cases h
    | atom a =>
      cases h
      exact .connecting left_mem_operands hl

theorem raises_of_combine {x y : Value} (hl : l.eval b = .ok x) (hask : op.asksRight x = true)
    (hr : r.eval b = .ok y) (h : op.combine x y = .error err) : (binary op l r).Raises b err := by
  have hmem : r ∈ (binary op l r).operands b := mem_operands_binary_iff.2 (Or.inr ⟨rfl, x, hl, hask⟩)
  have hcounting (hop : op.takesIntegers = true) (hy : y.isInteger = false) :
      (binary op l r).Raises b (.operation (.typeMismatch (.binary op) .integer)) :=
    .counting hop hmem hr hy
  cases op with
  | equality op =>
    rcases bind_eq_error_iff.1 h with h | ⟨p, _, h⟩
    · exact .comparing hl hr h
    · cases h
  | logic op =>
    cases y with
    | bool q => cases h
    | atom a =>
      cases h
      exact .connecting hmem hr
  | order op =>
    obtain ⟨i, rfl⟩ := Value.isInteger_iff.1 hask
    rcases bind_eq_error_iff.1 h with h | ⟨j, hj, h⟩
    · cases h
    · rcases bind_eq_error_iff.1 h with h | ⟨k, hk, h⟩
      · obtain ⟨hy, rfl⟩ := Value.number_eq_error h
        exact hcounting rfl hy
      · cases h
  | arith op =>
    obtain ⟨i, rfl⟩ := Value.isInteger_iff.1 hask
    rcases bind_eq_error_iff.1 h with h | ⟨j, hj, h⟩
    · cases h
    · rcases bind_eq_error_iff.1 h with h | ⟨k, hk, h⟩
      · obtain ⟨hy, rfl⟩ := Value.number_eq_error h
        exact hcounting rfl hy
      · cases hj
        rw [Value.number_eq_ok hk] at hr
        obtain ⟨hnone, rfl⟩ := ArithOp.value_eq_error h
        exact .computing hl hr hnone

/-- An expression fails with the error of an operand, or with one of its own. -/
theorem eval_eq_error_cases (h : e.eval b = .error err) :
    (∃ x ∈ e.operands b, x.eval b = .error err) ∨ e.Raises b err := by
  cases e with
  | leaf t =>
    cases ht : t.ground b with
    | ok a =>
      simp only [eval, ht] at h
      cases h
    | error e =>
      simp only [eval, ht] at h
      cases h
      obtain ⟨rfl, hv⟩ := Term.ground_eq_error_iff.1 ht
      exact Or.inr (.unbound hv)
  | not e =>
    rcases bind_eq_error_iff.1 h with h | ⟨x, hx, h⟩
    · exact Or.inl ⟨e, List.mem_singleton_self e, h⟩
    · cases x with
      | bool p => cases h
      | atom a =>
        cases h
        exact Or.inr (.negating hx)
  | binary op l r =>
    rw [eval_binary] at h
    rcases bind_eq_error_iff.1 h with h | ⟨x, hx, h⟩
    · exact Or.inl ⟨l, left_mem_operands, h⟩
    · cases hask : op.asksRight x with
      | false =>
        rw [hask, if_neg Bool.false_ne_true] at h
        exact Or.inr (raises_of_settle hx hask h)
      | true =>
        rw [hask, if_pos rfl] at h
        rcases bind_eq_error_iff.1 h with h | ⟨y, hy, h⟩
        · exact Or.inl ⟨r, mem_operands_binary_iff.2 (Or.inr ⟨rfl, x, hx, hask⟩), h⟩
        · exact Or.inr (raises_of_combine hx hask hy h)

/-! ## 3. The first failure -/

/-- The sub-expressions that are evaluated, in the order in which their evaluations end: operands from
the left, and after them what they are operands of. -/
def evaluated (b : Binding) : Expr Term → List (Expr Term)
  | leaf t => [leaf t]
  | not operand => operand.evaluated b ++ [not operand]
  | binary op left right =>
    match left.eval b with
    | .ok x =>
      if op.asksRight x then left.evaluated b ++ right.evaluated b ++ [binary op left right]
      else left.evaluated b ++ [binary op left right]
    | .error _ => left.evaluated b ++ [binary op left right]

/-- Whether the evaluation of an expression ends with an error. -/
def fails (b : Binding) (e : Expr Term) : Bool :=
  !(e.eval b).isOk

/-- The first of the sub-expressions whose evaluation ends with an error. -/
def firstFailure (b : Binding) (e : Expr Term) : Option (Expr Term) :=
  (e.evaluated b).find? (fails b)

theorem fails_of_eval_eq_ok {x : Value} (h : e.eval b = .ok x) : e.fails b = false := by
  rw [fails, h]
  rfl

theorem fails_of_eval_eq_error (h : e.eval b = .error err) : e.fails b = true := by
  rw [fails, h]
  rfl

theorem evaluated_eq (b : Binding) (e : Expr Term) :
    e.evaluated b = (e.operands b).flatMap (evaluated b) ++ [e] := by
  cases e with
  | leaf t => rfl
  | not e => rw [evaluated, operands, List.flatMap_singleton]
  | binary op l r =>
    rw [evaluated, operands]
    cases l.eval b with
    | error err => rw [List.flatMap_singleton]
    | ok x =>
      by_cases hask : op.asksRight x = true
      · simp only [if_pos hask, List.flatMap_cons, List.flatMap_nil, List.append_nil]
      · simp only [if_neg hask, List.flatMap_singleton]

theorem firstFailure_eq (b : Binding) (e : Expr Term) :
    e.firstFailure b =
      ((e.operands b).findSome? (firstFailure b)).or (if e.fails b then some e else none) := by
  rw [firstFailure, evaluated_eq, List.find?_append, List.find?_flatMap, List.find?_singleton]
  rfl

/-- An expression has a value if nothing on the way fails, and else its error is that of the first
sub-expression that fails, which gives rise to it. -/
theorem firstFailure_cases (b : Binding) (e : Expr Term) :
    (e.firstFailure b = none ∧ ∃ x, e.eval b = .ok x) ∨
      ∃ s err, e.firstFailure b = some s ∧ e.eval b = .error err ∧ s.Raises b err := by
  induction e using operands_induction b with
  | h e ih =>
    rw [firstFailure_eq]
    cases hs : (e.operands b).findSome? (firstFailure b) with
    | some s =>
      obtain ⟨x, hx, hfirst⟩ := List.exists_of_findSome?_eq_some hs
      rcases ih x hx with ⟨hnone, _⟩ | ⟨s', err, hsome, herr, hraises⟩
      · rw [hfirst] at hnone
        cases hnone
      · cases hfirst.symm.trans hsome
        exact Or.inr ⟨s, err, rfl, eval_of_mem_operands hx herr, hraises⟩
    | none =>
      -- no operand fails, so an error is of the expression itself
      cases he : e.eval b with
      | ok x =>
        rw [fails_of_eval_eq_ok he, if_neg Bool.false_ne_true]
        exact Or.inl ⟨rfl, x, rfl⟩
      | error err =>
        rw [fails_of_eval_eq_error he, if_pos rfl]
        refine Or.inr ⟨e, err, rfl, rfl, (eval_eq_error_cases he).resolve_left ?_⟩
        rintro ⟨x, hx, hxerr⟩
        rcases ih x hx with ⟨_, y, hy⟩ | ⟨s, _, hsome, _⟩
        · cases hxerr.symm.trans hy
        · rw [List.findSome?_eq_none_iff.1 hs x hx] at hsome
          cases hsome

end Expr

end ForwardChaining
