import ForwardChaining.Proofs.Matching
import ForwardChaining.Rule.Occurrence

/-!
# Evaluation — guards under larger bindings

An expression either stops at one of its variables that has no value, or it needs no further value
and has the same result under every larger binding (`Expr.eval_agrees`). So a guard may be tested as
soon as its variables have values.
-/

namespace ForwardChaining

/-! ## 1. Computations under a smaller and a larger binding -/

/-- `x` stops at one of the given variables that `b` does not bind, or it stops at no variable and
`y` is the same. -/
def Agrees {α : Type} (b : Binding) (vs : List Variable) (x y : Except EvalError α) : Prop :=
  (∃ v ∈ vs, ¬ b.isBound v ∧ x = .error (.unbound v)) ∨ (y = x ∧ ∀ v, x ≠ .error (.unbound v))

namespace Agrees

variable {α β : Type} {b : Binding} {vs ws : List Variable}

theorem refl {x : Except EvalError α} (h : ∀ v, x ≠ .error (.unbound v)) : Agrees b vs x x :=
  Or.inr ⟨rfl, h⟩

theorem ok (a : α) : Agrees b vs (.ok a) (.ok a) :=
  refl fun _ h => (nomatch h)

theorem mono {x y : Except EvalError α} (h : Agrees b vs x y) (hsub : vs ⊆ ws) :
    Agrees b ws x y :=
  h.imp (fun ⟨v, hv, hb, hx⟩ => ⟨v, hsub hv, hb, hx⟩) id

theorem bind {x y : Except EvalError α} {f g : α → Except EvalError β} (h : Agrees b vs x y)
    (hfg : ∀ a, Agrees b vs (f a) (g a)) : Agrees b vs (x >>= f) (y >>= g) := by
  rcases h with ⟨v, hv, hb, rfl⟩ | ⟨rfl, hne⟩
  · exact Or.inl ⟨v, hv, hb, rfl⟩
  · cases y with
    | error e => exact refl fun v hv => hne v (congrArg Except.error (Except.error.inj hv))
    | ok a => exact hfg a

theorem unbound {x y : Except EvalError α} {v : Variable} (h : Agrees b vs x y)
    (hx : x = .error (.unbound v)) : v ∈ vs ∧ ¬ b.isBound v := by
  rcases h with ⟨w, hw, hb, he⟩ | ⟨_, hne⟩
  · cases hx.symm.trans he
    exact ⟨hw, hb⟩
  · exact absurd hx (hne v)

theorem eq_of_ne_unbound {x y : Except EvalError α} (h : Agrees b vs x y)
    (hx : ∀ v, x ≠ .error (.unbound v)) : y = x := by
  rcases h with ⟨v, _, _, he⟩ | ⟨he, _⟩
  · exact absurd he (hx v)
  · exact he

end Agrees

/-! ## 2. Operations on values fail for one reason, and look at no variable -/

theorem Value.truth_eq_error {asker : Asker} {x : Value} {e : EvalError}
    (h : x.truth asker = .error e) : e = .operation (.typeMismatch asker .boolean) := by
  cases x with
  | bool p => cases h
  | atom a => exact (Except.error.inj h).symm

def Value.isInteger : Value → Bool
  | atom (.integer _) => true
  | _ => false

theorem Value.isInteger_iff {x : Value} : x.isInteger = true ↔ ∃ i, x = .atom (.integer i) := by
  constructor
  · intro h
    cases x with
    | bool p => cases h
    | atom a =>
      cases a with
      | symbol s => cases h
      | integer i => exact ⟨i, rfl⟩
  · rintro ⟨i, rfl⟩
    rfl

theorem Value.number_eq_error {asker : Asker} {x : Value} {e : EvalError}
    (h : x.number asker = .error e) :
    x.isInteger = false ∧ e = .operation (.typeMismatch asker .integer) := by
  cases x with
  | bool p => exact ⟨rfl, (Except.error.inj h).symm⟩
  | atom a =>
    cases a with
    | symbol s => exact ⟨rfl, (Except.error.inj h).symm⟩
    | integer i => cases h

theorem Value.number_eq_ok {asker : Asker} {x : Value} {i : Integer} (h : x.number asker = .ok i) :
    x = .atom (.integer i) := by
  cases x with
  | bool p => cases h
  | atom a =>
    cases a with
    | symbol s => cases h
    | integer j => rw [Except.ok.inj h]

theorem Value.compareWith_eq_error {op : EqualityOp} {x y : Value} {e : EvalError}
    (h : x.compareWith op y = .error e) :
    e = .operation (.typeMismatch (.binary (.equality op)) .sameSort) := by
  cases x with
  | atom a =>
    cases y with
    | atom a' => cases h
    | bool q => exact (Except.error.inj h).symm
  | bool p =>
    cases y with
    | atom a' => exact (Except.error.inj h).symm
    | bool q => cases h

theorem ArithOp.value_eq_error {op : ArithOp} {i j : Integer} {e : EvalError}
    (h : op.value i j = .error e) : op.apply i j = none ∧ e = .operation (.arithmetic op) := by
  rw [value] at h
  cases hr : op.apply i j with
  | none =>
    rw [hr] at h
    exact ⟨rfl, (Except.error.inj h).symm⟩
  | some k =>
    rw [hr] at h
    cases h

theorem ArithOp.value_eq_ok {op : ArithOp} {i j : Integer} {x : Value} (h : op.value i j = .ok x) :
    ∃ k, op.apply i j = some k ∧ x = .atom (.integer k) := by
  rw [value] at h
  cases hr : op.apply i j with
  | none =>
    rw [hr] at h
    cases h
  | some k =>
    rw [hr] at h
    exact ⟨k, rfl, (Except.ok.inj h).symm⟩

theorem Value.truth_ne_unbound (asker : Asker) (x : Value) (v : Variable) :
    x.truth asker ≠ .error (.unbound v) :=
  fun h => nomatch truth_eq_error h

theorem Value.number_ne_unbound (asker : Asker) (x : Value) (v : Variable) :
    x.number asker ≠ .error (.unbound v) :=
  fun h => nomatch (number_eq_error h).2

theorem Value.compareWith_ne_unbound (op : EqualityOp) (x y : Value) (v : Variable) :
    x.compareWith op y ≠ .error (.unbound v) :=
  fun h => nomatch compareWith_eq_error h

theorem ArithOp.value_ne_unbound (op : ArithOp) (i j : Integer) (v : Variable) :
    op.value i j ≠ .error (.unbound v) :=
  fun h => nomatch (value_eq_error h).2

/-! ## 3. Expressions -/

namespace Expr

/-- An expression stops at one of its variables that has no value, or a larger binding changes
nothing. -/
theorem eval_agrees {b c : Binding} (h : b ⊆ c) (e : Expr Term) :
    Agrees b e.vars (e.eval b) (e.eval c) := by
  induction e with
  | leaf t =>
    -- a leaf is the only place where a variable is looked at
    cases hb : t.ground b with
    | ok a =>
      simp only [eval, hb, Term.ground_of_subset h hb]
      exact Agrees.ok _
    | error err =>
      obtain ⟨rfl, hv⟩ := Term.ground_eq_error_iff.1 hb
      exact Or.inl ⟨err.var, List.mem_singleton_self _, hv, by simp only [eval, hb]⟩
  | not e ih =>
    exact ih.bind fun x => (Agrees.refl (x.truth_ne_unbound _)).bind fun p => Agrees.ok _
  | binary op l r ihl ihr =>
    rw [vars_binary]
    have hl : Agrees b (l.vars ++ r.vars) (l.eval b) (l.eval c) :=
      ihl.mono (List.subset_append_left _ _)
    have hr : Agrees b (l.vars ++ r.vars) (r.eval b) (r.eval c) :=
      ihr.mono (List.subset_append_right _ _)
    -- each family of operators is a sequence of such steps, left operand first
    cases op with
    | logic op =>
      refine hl.bind fun x => (Agrees.refl (x.truth_ne_unbound _)).bind fun p => ?_
      -- the right operand is evaluated in one of the branches only
      by_cases hp : p = op.decisive
      · simp only [if_pos hp]
        exact Agrees.ok _
      · simp only [if_neg hp]
        exact hr.bind fun y => (Agrees.refl (y.truth_ne_unbound _)).bind fun q => Agrees.ok _
    | equality op =>
      refine hl.bind fun x => hr.bind fun y => ?_
      exact (Agrees.refl (x.compareWith_ne_unbound op y)).bind fun p => Agrees.ok _
    | order op =>
      refine hl.bind fun x => (Agrees.refl (x.number_ne_unbound _)).bind fun i => hr.bind fun y => ?_
      exact (Agrees.refl (y.number_ne_unbound _)).bind fun j => Agrees.ok _
    | arith op =>
      refine hl.bind fun x => (Agrees.refl (x.number_ne_unbound _)).bind fun i => hr.bind fun y => ?_
      exact (Agrees.refl (y.number_ne_unbound _)).bind fun j => Agrees.refl (op.value_ne_unbound i j)

theorem holds_agrees {b c : Binding} (h : b ⊆ c) (e : Expr Term) :
    Agrees b e.vars (e.holds b) (e.holds c) :=
  (eval_agrees h e).bind fun x => Agrees.refl (x.truth_ne_unbound _)

theorem holds_of_subset {b c : Binding} (h : b ⊆ c) {e : Expr Term} {p : Bool}
    (hb : e.holds b = .ok p) : e.holds c = .ok p := by
  rw [← hb]
  refine (holds_agrees h e).eq_of_ne_unbound fun v hv => ?_
  rw [hb] at hv
  cases hv

theorem unbound_of_holds_eq_error {b : Binding} {e : Expr Term} {v : Variable}
    (h : e.holds b = .error (.unbound v)) : v ∈ e.vars ∧ ¬ b.isBound v :=
  (holds_agrees (Binding.subset_refl b) e).unbound h

end Expr

end ForwardChaining
