import ForwardChaining.Proofs.Operands

/-!
# Exactness — guards compute as with unbounded integers

`Expr.evalExact` computes an expression over all integers, where nothing but a zero divisor keeps an
operation from having a result. The value or the error that `Expr.eval` gives over 64-bit integers is
that of `Expr.evalExact`, so nothing wraps on the way, arithmetic errors excepted. Those come from the
first sub-expression that fails: its operands have values, and its own exact result is out of reach
(`Expr.eval_exact`).
-/

namespace ForwardChaining

/-! ## 1. Operations on 64-bit integers -/

theorem Integer.ofInt?_eq_none_iff {z : Int} : ofInt? z = none ↔ ¬ Fits z := by
  rw [ofInt?, ite_eq_right_iff]
  exact imp_congr_right fun _ => iff_of_false (Option.some_ne_none _) id

/-- Only one quotient of 64-bit integers is out of range. -/
theorem Integer.eq_of_not_fits_tdiv {x y : Int} (hx : Fits x) (h : ¬ Fits (x.tdiv y)) :
    x = -9223372036854775808 ∧ y = -1 := by
  simp only [Fits] at hx h
  have hle : (x.tdiv y).natAbs ≤ x.natAbs := Int.natAbs_tdiv_le_natAbs x y
  -- a quotient is no larger than the dividend, so this one is 2^63, and every divisor but -1 gives less
  have hxmin : x = -9223372036854775808 := by omega
  have hhalf : 2 ≤ y.natAbs → (x.tdiv y).natAbs ≤ x.natAbs / 2 := fun hy => by
    rw [Int.natAbs_tdiv]
    exact Nat.div_le_div_left hy (by decide)
  have hone : y ≠ 1 := by
    rintro rfl
    rw [Int.tdiv_one] at h
    omega
  have hzero : y ≠ 0 := by
    rintro rfl
    rw [Int.tdiv_zero] at h
    omega
  exact ⟨hxmin, by omega⟩

namespace ArithOp

/-- Whether an operation fails on 64-bit integers: the divisor is zero, the exact result is out of
range, or it is the remainder of -2^63 by -1. -/
def Overflows (op : ArithOp) (i j : Integer) : Prop :=
  ((op = .div ∨ op = .rem) ∧ j.toInt = 0) ∨
    (∃ z, op.exact i.toInt j.toInt = some z ∧ ¬ Integer.Fits z) ∨
    (op = .rem ∧ i.toInt = -9223372036854775808 ∧ j.toInt = -1)

theorem exact_eq_none_iff {op : ArithOp} {x y : Int} :
    op.exact x y = none ↔ (op = .div ∨ op = .rem) ∧ y = 0 := by
  cases op <;> simp [exact]

theorem apply_of_ne_rem {op : ArithOp} (h : op ≠ .rem) (i j : Integer) :
    op.apply i j = (op.exact i.toInt j.toInt).bind Integer.ofInt? := by
  cases op with
  | rem => exact absurd rfl h
  | _ => rfl

theorem apply_rem (i j : Integer) :
    ArithOp.rem.apply i j = (exact .div i.toInt j.toInt).bind fun q =>
      (Integer.ofInt? q).bind fun _ => (exact .rem i.toInt j.toInt).bind Integer.ofInt? :=
  rfl

/-- Where an operation has a result, that is the exact one. -/
theorem exact_of_apply {op : ArithOp} {i j k : Integer} (h : op.apply i j = some k) :
    op.exact i.toInt j.toInt = some k.toInt := by
  have hfits {o : Option Int} (h : o.bind Integer.ofInt? = some k) : o = some k.toInt := by
    obtain ⟨z, ho, hz⟩ := Option.bind_eq_some_iff.1 h
    rw [ho, (Integer.ofInt?_eq_some_iff z k).1 hz]
  by_cases hop : op = .rem
  · rw [hop, apply_rem] at h
    -- the quotient exists, and is not looked at again
    obtain ⟨_, _, h⟩ := Option.bind_eq_some_iff.1 h
    obtain ⟨_, _, h⟩ := Option.bind_eq_some_iff.1 h
    rw [hop]
    exact hfits h
  · rw [apply_of_ne_rem hop] at h
    exact hfits h

theorem overflows_of_apply {op : ArithOp} {i j : Integer} (h : op.apply i j = none) :
    op.Overflows i j := by
  have hexact {op' : ArithOp} (h : (op'.exact i.toInt j.toInt).bind Integer.ofInt? = none) :
      op'.Overflows i j := by
    cases ho : op'.exact i.toInt j.toInt with
    | none => exact Or.inl (exact_eq_none_iff.1 ho)
    | some z =>
      rw [ho, Option.bind_some] at h
      exact Or.inr (Or.inl ⟨z, ho, Integer.ofInt?_eq_none_iff.1 h⟩)
  by_cases hop : op = .rem
  · rw [hop] at h ⊢
    by_cases hj : j.toInt = 0
    · exact Or.inl ⟨Or.inr rfl, hj⟩
    · have hdiv : exact .div i.toInt j.toInt = some (i.toInt.tdiv j.toInt) := if_neg hj
      rw [apply_rem, hdiv, Option.bind_some] at h
      cases hq : Integer.ofInt? (i.toInt.tdiv j.toInt) with
      | none =>
        have hmin := Integer.eq_of_not_fits_tdiv (Integer.fits_toInt i)
          (Integer.ofInt?_eq_none_iff.1 hq)
        exact Or.inr (Or.inr ⟨rfl, hmin⟩)
      | some q =>
        rw [hq, Option.bind_some] at h
        exact hexact h
  · rw [apply_of_ne_rem hop] at h
    exact hexact h

end ArithOp

/-! ## 2. Evaluation over all integers -/

namespace Exact

/-- A constant whose integers are unbounded. -/
inductive Atom where
  | symbol (s : Symbol)
  | integer (z : Int)
deriving DecidableEq, Repr

/-- A value whose integers are unbounded. -/
inductive Value where
  | atom (a : Exact.Atom)
  | bool (p : Bool)
deriving DecidableEq, Repr

namespace Value

def truth (asker : Asker) : Exact.Value → Except EvalError Bool
  | bool p => .ok p
  | atom _ => .error (.operation (.typeMismatch asker .boolean))

def number (asker : Asker) : Exact.Value → Except EvalError Int
  | atom (.integer z) => .ok z
  | _ => .error (.operation (.typeMismatch asker .integer))

def compareWith (op : EqualityOp) : Exact.Value → Exact.Value → Except EvalError Bool
  | atom a, atom b => .ok (op.holds a b)
  | bool p, bool q => .ok (op.holds p q)
  | _, _ => .error (.operation (.typeMismatch (.binary (.equality op)) .sameSort))

end Value

end Exact

/-- The constant as one among those with unbounded integers. -/
def Atom.exact : Atom → Exact.Atom
  | symbol s => .symbol s
  | integer i => .integer i.toInt

def Value.exact : Value → Exact.Value
  | atom a => .atom a.exact
  | bool p => .bool p

def OrderOp.exact : OrderOp → Int → Int → Bool
  | lt, x, y => x < y
  | le, x, y => x ≤ y
  | gt, x, y => y < x
  | ge, x, y => y ≤ x

def ArithOp.exactValue (op : ArithOp) (x y : Int) : Except EvalError Exact.Value :=
  match op.exact x y with
  | some z => .ok (.atom (.integer z))
  | none => .error (.operation (.arithmetic op))

namespace Expr

/-- The value of an expression over all integers, left operand first. A connective does not look at its
right operand once the left one decides. -/
def evalExact (b : Binding) : Expr Term → Except EvalError Exact.Value
  | leaf t =>
    match t.ground b with
    | .ok a => .ok (.atom a.exact)
    | .error e => .error (.unbound e.var)
  | not operand => do
    let p ← (← operand.evalExact b).truth .not
    return .bool (!p)
  | binary (.logic op) left right => do
    let p ← (← left.evalExact b).truth (.binary (.logic op))
    if p = op.decisive then
      return .bool p
    else
      let q ← (← right.evalExact b).truth (.binary (.logic op))
      return .bool q
  | binary (.equality op) left right => do
    let x ← left.evalExact b
    let y ← right.evalExact b
    let p ← x.compareWith op y
    return .bool p
  | binary (.order op) left right => do
    let x ← (← left.evalExact b).number (.binary (.order op))
    let y ← (← right.evalExact b).number (.binary (.order op))
    return .bool (op.exact x y)
  | binary (.arith op) left right => do
    let x ← (← left.evalExact b).number (.binary (.arith op))
    let y ← (← right.evalExact b).number (.binary (.arith op))
    op.exactValue x y

end Expr

/-! ## 3. Computations over 64-bit integers and over all integers -/

/-- `x` is an arithmetic error, or `y` ends as `x` does. -/
def Tracks {α β : Type} (f : α → β) (x : Except EvalError α) (y : Except EvalError β) : Prop :=
  (∃ op, x = .error (.operation (.arithmetic op))) ∨ y = x.map f

namespace Tracks

variable {α β γ δ : Type} {f : α → β} {g : γ → δ}

theorem ok (a : α) : Tracks f (.ok a) (.ok (f a)) :=
  Or.inr rfl

theorem error (e : EvalError) : Tracks f (.error e) (.error e) :=
  Or.inr rfl

theorem bind {x : Except EvalError α} {y : Except EvalError β} {h : α → Except EvalError γ}
    {k : β → Except EvalError δ} (hxy : Tracks f x y) (hhk : ∀ a, Tracks g (h a) (k (f a))) :
    Tracks g (x >>= h) (y >>= k) := by
  rcases hxy with ⟨op, rfl⟩ | rfl
  · exact Or.inl ⟨op, rfl⟩
  · cases x with
    | error e => exact error e
    | ok a => exact hhk a

theorem eq_of_ok {y : Except EvalError β} {a : α} (h : Tracks f (.ok a) y) : y = .ok (f a) := by
  rcases h with ⟨op, h⟩ | h
  · cases h
  · exact h

theorem eq_of_error {y : Except EvalError β} {e : EvalError} (h : Tracks f (.error e) y)
    (he : ∀ op, e ≠ .operation (.arithmetic op)) : y = .error e := by
  rcases h with ⟨op, h⟩ | h
  · exact absurd (Except.error.inj h) (he op)
  · exact h

end Tracks

theorem Atom.exact_injective : Function.Injective Atom.exact := by
  intro a b h
  cases a with
  | symbol s =>
    cases b with
    | symbol s' => exact congrArg symbol (Exact.Atom.symbol.inj h)
    | integer j => cases h
  | integer i =>
    cases b with
    | symbol s' => cases h
    | integer j => exact congrArg integer (Int64.toInt_inj.1 (Exact.Atom.integer.inj h))

theorem EqualityOp.holds_exact (op : EqualityOp) (a b : Atom) :
    op.holds a.exact b.exact = op.holds a b := by
  have h : a.exact = b.exact ↔ a = b := Atom.exact_injective.eq_iff
  cases op with
  | eq => exact decide_eq_decide.2 h
  | ne => exact decide_eq_decide.2 (not_congr h)

theorem OrderOp.exact_toInt (op : OrderOp) (i j : Integer) :
    op.exact i.toInt j.toInt = op.holds i j := by
  cases op with
  | lt => exact decide_eq_decide.2 Int64.lt_iff_toInt_lt.symm
  | le => exact decide_eq_decide.2 Int64.le_iff_toInt_le.symm
  | gt => exact decide_eq_decide.2 Int64.lt_iff_toInt_lt.symm
  | ge => exact decide_eq_decide.2 Int64.le_iff_toInt_le.symm

theorem Value.truth_tracks (asker : Asker) (x : Value) :
    Tracks id (x.truth asker) (x.exact.truth asker) := by
  cases x with
  | atom a => exact Tracks.error _
  | bool p => exact Tracks.ok p

theorem Value.number_tracks (asker : Asker) (x : Value) :
    Tracks Int64.toInt (x.number asker) (x.exact.number asker) := by
  cases x with
  | bool p => exact Tracks.error _
  | atom a =>
    cases a with
    | symbol s => exact Tracks.error _
    | integer i => exact Tracks.ok i

theorem Value.compareWith_tracks (op : EqualityOp) (x y : Value) :
    Tracks id (x.compareWith op y) (x.exact.compareWith op y.exact) := by
  cases x with
  | atom a =>
    cases y with
    | atom a' => exact Or.inr (congrArg Except.ok (op.holds_exact a a'))
    | bool q => exact Tracks.error _
  | bool p =>
    cases y with
    | atom a' => exact Tracks.error _
    | bool q => exact Tracks.ok (op.holds p q)

theorem ArithOp.value_tracks (op : ArithOp) (i j : Integer) :
    Tracks Value.exact (op.value i j) (op.exactValue i.toInt j.toInt) := by
  cases h : op.apply i j with
  | none => exact Or.inl ⟨op, by rw [value, h]⟩
  | some k =>
    rw [value, h, exactValue, exact_of_apply h]
    exact Tracks.ok _

theorem Expr.eval_tracks (b : Binding) (e : Expr Term) :
    Tracks Value.exact (e.eval b) (e.evalExact b) := by
  induction e with
  | leaf t =>
    cases h : t.ground b with
    | ok a =>
      simp only [eval, evalExact, h]
      exact Tracks.ok _
    | error err =>
      simp only [eval, evalExact, h]
      exact Tracks.error _
  | not e ih => exact ih.bind fun x => (x.truth_tracks _).bind fun p => Tracks.ok _
  | binary op l r ihl ihr =>
    cases op with
    | logic op =>
      refine ihl.bind fun x => (x.truth_tracks _).bind fun p => ?_
      by_cases hp : p = op.decisive
      · simp only [id_eq, if_pos hp]
        exact Tracks.ok _
      · simp only [id_eq, if_neg hp]
        exact ihr.bind fun y => (y.truth_tracks _).bind fun q => Tracks.ok _
    | equality op =>
      refine ihl.bind fun x => ihr.bind fun y => ?_
      exact (x.compareWith_tracks op y).bind fun p => Tracks.ok _
    | order op =>
      refine ihl.bind fun x => (x.number_tracks _).bind fun i => ihr.bind fun y => ?_
      refine (y.number_tracks _).bind fun j => ?_
      rw [op.exact_toInt i j]
      exact Tracks.ok _
    | arith op =>
      refine ihl.bind fun x => (x.number_tracks _).bind fun i => ihr.bind fun y => ?_
      exact (y.number_tracks _).bind fun j => op.value_tracks i j

/-- What an expression comes to over 64-bit integers, value or error, it comes to over all integers, unless
an operation fails in arithmetic. That is the case exactly if the first sub-expression that fails is an
operation on two integers whose divisor is zero, whose exact result is out of range, or which is the
remainder of -2^63 by -1. -/
theorem Expr.eval_exact (b : Binding) (e : Expr Term) :
    (∀ x, e.eval b = .ok x → e.evalExact b = .ok x.exact) ∧
      (∀ v, e.eval b = .error (.unbound v) → e.evalExact b = .error (.unbound v)) ∧
      (∀ asker demand, e.eval b = .error (.operation (.typeMismatch asker demand)) →
        e.evalExact b = .error (.operation (.typeMismatch asker demand))) ∧
      ∀ op, e.eval b = .error (.operation (.arithmetic op)) ↔
        ∃ l r i j, e.firstFailure b = some (binary (.arith op) l r) ∧
          l.eval b = .ok (.atom (.integer i)) ∧ r.eval b = .ok (.atom (.integer j)) ∧
          op.Overflows i j := by
  have htracks : Tracks Value.exact (e.eval b) (e.evalExact b) := eval_tracks b e
  refine ⟨fun x h => ?_, fun v h => ?_, fun asker demand h => ?_, fun op => ⟨fun h => ?_, ?_⟩⟩
  · rw [h] at htracks
    exact htracks.eq_of_ok
  · rw [h] at htracks
    exact htracks.eq_of_error fun op hop => nomatch hop
  · rw [h] at htracks
    exact htracks.eq_of_error fun op hop => nomatch hop
  · rcases firstFailure_cases b e with ⟨_, x, hx⟩ | ⟨s, err, hfirst, herr, hraises⟩
    · cases h.symm.trans hx
    · cases h.symm.trans herr
      cases hraises with
      | comparing _ _ hcompare => cases Value.compareWith_eq_error hcompare
      | computing hl hr hnone => exact ⟨_, _, _, _, hfirst, hl, hr, ArithOp.overflows_of_apply hnone⟩
  · rintro ⟨l, r, i, j, hfirst, hl, hr, _⟩
    rcases firstFailure_cases b e with ⟨hnone, _⟩ | ⟨s, err, hsome, herr, hraises⟩
    · rw [hfirst] at hnone
      cases hnone
    · cases hfirst.symm.trans hsome
      -- both operands are integers, so nothing but the operation itself can fail
      cases hraises with
      | counting _ hx hy hinteger =>
        rcases mem_operands_binary_iff.1 hx with rfl | ⟨rfl, _⟩
        · cases hl.symm.trans hy
          cases hinteger
        · cases hr.symm.trans hy
          cases hinteger
      | computing => exact herr

/-- With `?0` the least integer and `?1` five: a comparison of two quotients, a variable without a value
behind a decided connective and in front of one, a sum of an integer and a truth value, and a remainder
without result in front of a product without one. -/
theorem Expr.eval_exact_least :
    let v (i : Nat) : Expr Term := .leaf (.var ⟨i⟩)
    let n (i : Integer) : Expr Term := .leaf (.const (.integer i))
    let arith (op : ArithOp) (l r : Expr Term) : Expr Term := .binary (.arith op) l r
    let less (l r : Expr Term) : Expr Term := .binary (.order .lt) l r
    let either (l r : Expr Term) : Expr Term := .binary (.logic .or) l r
    let b : Binding := ⟨⟨[(0, .integer (-9223372036854775808)), (1, .integer 5)], by decide⟩⟩
    let value := either (less (arith .div (v 0) (v 1)) (arith .rem (v 0) (v 1))) (less (v 2) (n 0))
    let early := either (less (v 2) (n 0)) (less (v 0) (v 1))
    let mixed := arith .add (v 1) (less (v 0) (v 1))
    let narrow := less (arith .rem (v 0) (arith .sub (n 4) (v 1))) (arith .mul (v 0) (v 1))
    (value.eval b = .ok (.bool true) ∧ value.evalExact b = .ok (.bool true)) ∧
      (early.eval b = .error (.unbound ⟨2⟩) ∧ early.evalExact b = .error (.unbound ⟨2⟩)) ∧
      (mixed.eval b = .error (.operation (.typeMismatch (.binary (.arith .add)) .integer)) ∧
        mixed.evalExact b = .error (.operation (.typeMismatch (.binary (.arith .add)) .integer))) ∧
      narrow.eval b = .error (.operation (.arithmetic .rem)) ∧
        ∃ l r i j, narrow.firstFailure b = some (.binary (.arith .rem) l r) ∧
          l.eval b = .ok (.atom (.integer i)) ∧ r.eval b = .ok (.atom (.integer j)) ∧
          ArithOp.rem.Overflows i j := by
  intro v n arith less either b value early mixed narrow
  have hvalue : value.eval b = .ok (.bool true) := by decide +kernel
  have hearly : early.eval b = .error (.unbound ⟨2⟩) := by decide +kernel
  have hmixed : mixed.eval b =
      .error (.operation (.typeMismatch (.binary (.arith .add)) .integer)) := by decide +kernel
  have hnarrow : narrow.eval b = .error (.operation (.arithmetic .rem)) := by decide +kernel
  exact ⟨⟨hvalue, (eval_exact b value).1 _ hvalue⟩, ⟨hearly, (eval_exact b early).2.1 _ hearly⟩,
    ⟨hmixed, (eval_exact b mixed).2.2.1 _ _ hmixed⟩, hnarrow,
    ((eval_exact b narrow).2.2.2 _).1 hnarrow⟩

end ForwardChaining
