import ForwardChaining.Proofs.Correspondence
import ForwardChaining.Proofs.Solving

/-!
# Substitution — solving under a binding is solving the conditions with its values

Replacing the variables that a binding binds by their values, at every depth, moves the binding into the
conditions. From the empty binding the new conditions are solved as the old ones are from the binding:
the solutions lack it, and nothing else differs (`solve_subst`). A tuple that starts with a variable is
excepted where the value is the head of a negation or a guard, because a tuple with that head is no
longer looked up in the facts.
-/

namespace ForwardChaining

/-! ## 1. Substitution -/

section Definitions

variable (b : Binding)

def Term.subst : Term → Term
  | .var v =>
    match b.get? v with
    | some a => .const a
    | none => .var v
  | .const a => .const a

def Tuple.subst (t : Tuple) : Tuple :=
  t.map (Term.subst b)

def Expr.subst : Expr Term → Expr Term
  | .leaf t => .leaf (t.subst b)
  | .binary op left right => .binary op left.subst right.subst
  | .not operand => .not operand.subst

mutual

/-- Replaces each variable that the binding binds by its value. -/
def Condition.subst : Condition → Condition
  | .tuple t => .tuple (t.subst b)
  | .form head args => .form head (Argument.substAll args)

def Argument.substAll : List Argument → List Argument
  | [] => []
  | .term t :: args => .term (t.subst b) :: Argument.substAll args
  | .condition c :: args => .condition c.subst :: Argument.substAll args
  | .expr e :: args => .expr (e.subst b) :: Argument.substAll args

end

mutual

/-- The tuples of a condition at every depth. -/
def Condition.tuples : Condition → List Tuple
  | .tuple t => [t]
  | .form _ args => Argument.tuplesOfAll args

def Argument.tuplesOfAll : List Argument → List Tuple
  | [] => []
  | .term _ :: args => Argument.tuplesOfAll args
  | .condition c :: args => c.tuples ++ Argument.tuplesOfAll args
  | .expr _ :: args => Argument.tuplesOfAll args

end

/-- Whether the head of a tuple can be replaced by its value: a variable with the head of a negation or
a guard as value cannot. -/
def Tuple.KeepsHead : Tuple → Prop
  | .var v :: _ => b.get? v ≠ some (.symbol .negation) ∧ b.get? v ≠ some (.symbol .guard)
  | .const _ :: _ => True
  | [] => True

instance : (t : Tuple) → Decidable (t.KeepsHead b)
  | .var _ :: _ => inferInstanceAs (Decidable (_ ∧ _))
  | .const _ :: _ => inferInstanceAs (Decidable True)
  | [] => inferInstanceAs (Decidable True)

/-- Whether `x` is exactly `b` together with `y`, where the two bind different variables. -/
def Binding.IsUnion (x b y : Binding) : Prop :=
  (∀ v, x.get? v = (b.get? v).or (y.get? v)) ∧ ∀ v, b.isBound v → ¬ y.isBound v

end Definitions

variable {b x y : Binding}

/-! ## 2. Bindings put together -/

namespace Binding.IsUnion

theorem empty_right (b : Binding) : b.IsUnion b ∅ :=
  ⟨fun _ => Option.or_none.symm, fun _ _ => Bool.false_ne_true⟩

theorem get?_of_some (h : x.IsUnion b y) {v : Variable} {a : Atom} (hb : b.get? v = some a) :
    x.get? v = some a := by
  rw [h.1, hb, Option.some_or]

theorem get?_of_none (h : x.IsUnion b y) {v : Variable} (hb : b.get? v = none) :
    x.get? v = y.get? v := by
  rw [h.1, hb, Option.none_or]

theorem extend (h : x.IsUnion b y) {v : Variable} {a : Atom} (hb : b.get? v = none)
    {x' y' : Binding} (hx : x.extend v a = .ok x') (hy : y.extend v a = .ok y') : x'.IsUnion b y' := by
  refine ⟨fun w => ?_, fun w hw hw' => ?_⟩
  · rw [get?_extend hx, get?_extend hy]
    by_cases hwv : w = v
    · rw [if_pos hwv, if_pos hwv, hwv, hb, Option.none_or]
    · rw [if_neg hwv, if_neg hwv, h.1]
  · -- the new variable is not one of `b`
    have hwv : w ≠ v := fun he => by
      rw [isBound, he, hb] at hw
      cases hw
    rw [isBound, get?_extend hy, if_neg hwv] at hw'
    exact h.2 w hw hw'

end Binding.IsUnion

/-! ## 3. Grounding and matching -/

theorem Term.subst_of_some {v : Variable} {a : Atom} (h : b.get? v = some a) :
    (var v).subst b = const a := by
  simp only [subst, h]

theorem Term.subst_of_none {v : Variable} (h : b.get? v = none) : (var v).subst b = var v := by
  simp only [subst, h]

theorem Term.ground_subst (h : x.IsUnion b y) (t : Term) : (t.subst b).ground y = t.ground x := by
  cases t with
  | const a => rfl
  | var v =>
    cases hb : b.get? v with
    | some a => simp only [subst_of_some hb, ground, h.get?_of_some hb]
    | none => simp only [subst_of_none hb, ground, h.get?_of_none hb]

theorem Expr.eval_subst (h : x.IsUnion b y) (e : Expr Term) : (e.subst b).eval y = e.eval x := by
  induction e with
  | leaf t => simp only [subst, eval, Term.ground_subst h]
  | not e ih => simp only [subst, eval, ih]
  | binary op l r ihl ihr => cases op <;> simp only [subst, eval, ihl, ihr]

theorem Expr.holds_subst (h : x.IsUnion b y) (e : Expr Term) : (e.subst b).holds y = e.holds x := by
  rw [holds, holds, eval_subst h]

theorem Term.matchAtom_subst (h : x.IsUnion b y) (t : Term) (a : Atom) :
    Alike (Option.Rel fun x y => x.IsUnion b y) (t.matchAtom a x) ((t.subst b).matchAtom a y) := by
  -- where a value is asked for, it decides on both sides
  have hvalue (old : Atom) : Option.Rel (fun x y => Binding.IsUnion x b y)
      (if old = a then some x else none) (if old = a then some y else none) :=
    rel_ite (Option.Rel.some h) Option.Rel.none
  cases t with
  | const c => exact Alike.ok (hvalue c)
  | var v =>
    cases hb : b.get? v with
    | some old =>
      simp only [subst_of_some hb, matchAtom, h.get?_of_some hb]
      exact Alike.ok (hvalue old)
    | none =>
      have hxy : x.get? v = y.get? v := h.get?_of_none hb
      cases hy : y.get? v with
      | some old =>
        rw [hy] at hxy
        simp only [subst_of_none hb, matchAtom, hxy, hy]
        exact Alike.ok (hvalue old)
      | none =>
        -- the variable is new to both, and both give it the atom
        rw [hy] at hxy
        obtain ⟨x', hx', _⟩ := Binding.exists_extend a hxy
        obtain ⟨y', hy', _⟩ := Binding.exists_extend a hy
        simp only [subst_of_none hb, matchAtom, hxy, hy, hx', hy', Except.map]
        exact Alike.ok (Option.Rel.some (h.extend hb hx' hy'))

theorem Tuple.matchFact_subst (h : x.IsUnion b y) (t : Tuple) (f : Fact) :
    Alike (Option.Rel fun x y => x.IsUnion b y) (t.matchFact f x) ((t.subst b).matchFact f y) := by
  induction t generalizing f x y with
  | nil =>
    cases f with
    | nil => exact Alike.ok (Option.Rel.some h)
    | cons a f => exact Alike.ok Option.Rel.none
  | cons t ts ih =>
    cases f with
    | nil => exact Alike.ok Option.Rel.none
    | cons a f =>
      refine (Term.matchAtom_subst h t a).bind fun o o' ho => ?_
      cases ho with
      | none => exact Alike.ok Option.Rel.none
      | some hxy => exact ih hxy f

theorem FactBase.query_subst (F : FactBase) (h : x.IsUnion b y) (t : Tuple) :
    Alike (List.Forall₂ fun x y => x.IsUnion b y) (F.query t x) (F.query (t.subst b) y) := by
  refine Alike.filterMapM (List.forall₂_same.2 fun _ _ => rfl) fun f g hfg => ?_
  rw [hfg]
  exact Tuple.matchFact_subst h t g

/-! ## 4. Forms -/

/-- Whether a search finds without `b` what another finds under it. -/
def Search.Substituted (b : Binding) : Search → Search → Prop :=
  Search.Corresponds fun x y => x.IsUnion b y

theorem Form.reject_substituted (c c' : Condition) (h : c.head? = c'.head?) (reason : ShapeError) :
    Search.Substituted b (fun _ => reject c reason) (fun _ => reject c' reason) := by
  intro x y _
  show Alike _ (Except.error (InferenceError.malformed c.head? reason)) (reject c' reason)
  rw [h]
  exact Alike.error _

theorem Argument.all_condition?_substAll (args : List Argument) :
    (substAll b args).all (·.condition?.isSome) = args.all (·.condition?.isSome) := by
  induction args with
  | nil => rfl
  | cons arg args ih =>
    cases arg with
    | term t => rfl
    | expr e => rfl
    | condition c => exact ih

theorem Form.negation_substituted (F : FactBase) (head : Symbol) (args : List Argument)
    {nested nested' : List Search} (h : List.Forall₂ (Search.Substituted b) nested nested') :
    Search.Substituted b (negation.resolve F (.form head args) nested)
      (negation.resolve F (.form head (Argument.substAll b args)) nested') := by
  by_cases hargs : args.all (·.condition?.isSome) = true
  · have hargs' : (Argument.substAll b args).all (·.condition?.isSome) = true := by
      rw [Argument.all_condition?_substAll, hargs]
    intro x y hxy
    simp only [negation, if_pos hargs, if_pos hargs']
    refine (Search.Corresponds.all h x y hxy).bind fun sols sols' hsols => ?_
    -- whether there is a solution is all that counts
    cases hsols with
    | nil => exact Alike.ok (List.Forall₂.cons hxy List.Forall₂.nil)
    | cons _ _ => exact Alike.ok List.Forall₂.nil
  · have hargs' : ¬ (Argument.substAll b args).all (·.condition?.isSome) = true := by
      rw [Argument.all_condition?_substAll]
      exact hargs
    simp only [negation, if_neg hargs, if_neg hargs']
    exact reject_substituted _ _ rfl .negation

theorem Argument.exists_of_substAll_eq {args : List Argument} {e' : Expr Term}
    (h : substAll b args = [.expr e']) : ∃ e, args = [.expr e] := by
  match args with
  | .expr e :: [] => exact ⟨e, rfl⟩
  | .expr e :: .term t :: args => cases h
  | .expr e :: .condition c :: args => cases h
  | .expr e :: .expr e₁ :: args => cases h

theorem Form.guard_substituted (F : FactBase) (head : Symbol) (args : List Argument)
    (nested nested' : List Search) :
    Search.Substituted b (guard.resolve F (.form head args) nested)
      (guard.resolve F (.form head (Argument.substAll b args)) nested') := by
  intro x y hxy
  -- a single expression is evaluated, anything else is refused
  by_cases h : ∃ e, args = [.expr e]
  · obtain ⟨e, rfl⟩ := h
    show Alike _
      ((e.holds x).mapError InferenceError.ofEval >>= fun p => pure (if p = true then [x] else []))
      (((e.subst b).holds y).mapError InferenceError.ofEval >>= fun p =>
        pure (if p = true then [y] else []))
    rw [e.holds_subst hxy]
    refine (Alike.refl _).bind fun p q hpq => ?_
    rw [hpq]
    exact Alike.ok (rel_ite (List.Forall₂.cons hxy List.Forall₂.nil) List.Forall₂.nil)
  · have hargs : ∀ e, args ≠ [.expr e] := fun e he => h ⟨e, he⟩
    have hargs' : ∀ e, Argument.substAll b args ≠ [.expr e] := fun e he =>
      h (Argument.exists_of_substAll_eq he)
    rw [guard_eq_reject hargs, guard_eq_reject hargs']
    exact reject_substituted _ _ rfl .guard x y hxy

/-! ## 5. Solving -/

namespace Tuple

variable {ts : Tuple}

theorem isPlain_cons_var (v : Variable) (ts : Tuple) : IsPlain (.var v :: ts) :=
  ⟨fun h => (nomatch h), fun h => (nomatch h)⟩

theorem isPlain_cons_const_iff {a : Atom} :
    IsPlain (.const a :: ts) ↔ a ≠ .symbol .negation ∧ a ≠ .symbol .guard := by
  cases a with
  | integer i => exact ⟨fun _ => ⟨fun h => (nomatch h), fun h => (nomatch h)⟩,
      fun _ => ⟨fun h => (nomatch h), fun h => (nomatch h)⟩⟩
  | symbol s =>
    show some s ≠ some .negation ∧ some s ≠ some .guard ↔ _
    simp only [ne_eq, Option.some.injEq, Atom.symbol.injEq]

theorem KeepsHead.isPlain_subst {t : Tuple} (hb : t.KeepsHead b) (h : t.IsPlain) :
    (t.subst b).IsPlain := by
  cases t with
  | nil => exact h
  | cons u ts =>
    cases u with
    | const a => exact isPlain_cons_const_iff.2 (isPlain_cons_const_iff.1 h)
    | var v =>
      show IsPlain (Term.subst b (.var v) :: subst b ts)
      have ⟨hn, hg⟩ := hb
      cases hv : b.get? v with
      | none =>
        rw [Term.subst_of_none hv]
        exact isPlain_cons_var v _
      | some a =>
        rw [hv] at hn hg
        rw [Term.subst_of_some hv, isPlain_cons_const_iff]
        exact ⟨fun ha => hn (congrArg some ha), fun ha => hg (congrArg some ha)⟩

theorem exists_of_not_isPlain {t : Tuple} (h : ¬ t.IsPlain) :
    ∃ ts, t = .const (.symbol .negation) :: ts ∨ t = .const (.symbol .guard) :: ts := by
  cases t with
  | nil => exact absurd (by decide) h
  | cons u ts =>
    cases u with
    | var v => exact absurd (isPlain_cons_var v ts) h
    | const a =>
      refine ⟨ts, ?_⟩
      rw [isPlain_cons_const_iff, not_and_or, not_not, not_not] at h
      exact h.imp (fun ha => by rw [ha]) fun ha => by rw [ha]

end Tuple

namespace Condition

theorem search_tuple_substituted (F : FactBase) {t : Tuple} (hb : t.KeepsHead b) :
    Search.Substituted b ((tuple t).search .builtin F) ((tuple (t.subst b)).search .builtin F) := by
  by_cases ht : t.IsPlain
  · intro x y hxy
    rw [search_tuple ht, search_tuple (hb.isPlain_subst ht)]
    exact (F.query_subst hxy t).mapError _
  · -- the head is a constant, and refused on both sides
    obtain ⟨ts, rfl | rfl⟩ := Tuple.exists_of_not_isPlain ht
    · exact Form.reject_substituted (.tuple (.const (.symbol .negation) :: ts))
        (.tuple (.const (.symbol .negation) :: Tuple.subst b ts)) rfl .negation
    · exact Form.reject_substituted (.tuple (.const (.symbol .guard) :: ts))
        (.tuple (.const (.symbol .guard) :: Tuple.subst b ts)) rfl .guard

theorem search_form_substituted (F : FactBase) (head : Symbol) (args : List Argument)
    (h : List.Forall₂ (Search.Substituted b) (Argument.searches .builtin F args)
      (Argument.searches .builtin F (Argument.substAll b args))) :
    Search.Substituted b ((form head args).search .builtin F)
      ((form head (Argument.substAll b args)).search .builtin F) := by
  rw [search, search, Registry.lookup_builtin_form, Registry.lookup_builtin_form]
  by_cases hg : head = .guard
  · rw [if_pos hg]
    exact Form.guard_substituted F head args _ _
  · rw [if_neg hg]
    by_cases hn : head = .negation
    · rw [if_pos hn]
      exact Form.negation_substituted F head args h
    · rw [if_neg hn]
      exact Form.reject_substituted _ _ rfl .unregistered

end Condition

mutual

theorem Condition.search_substituted (F : FactBase) : (c : Condition) →
    (∀ t ∈ c.tuples, t.KeepsHead b) →
    Search.Substituted b (c.search .builtin F) ((c.subst b).search .builtin F)
  | .tuple t, h => Condition.search_tuple_substituted F (h t (List.mem_singleton_self t))
  | .form head args, h =>
    Condition.search_form_substituted F head args (Argument.searches_substituted F args h)

theorem Argument.searches_substituted (F : FactBase) : (args : List Argument) →
    (∀ t ∈ Argument.tuplesOfAll args, t.KeepsHead b) →
    List.Forall₂ (Search.Substituted b) (Argument.searches .builtin F args)
      (Argument.searches .builtin F (Argument.substAll b args))
  | [], _ => .nil
  | .term _ :: args, h => Argument.searches_substituted F args h
  | .condition c :: args, h =>
    .cons (c.search_substituted F fun t ht => h t (List.mem_append_left _ ht))
      (Argument.searches_substituted F args fun t ht => h t (List.mem_append_right _ ht))
  | .expr _ :: args, h => Argument.searches_substituted F args h

end

/-- Solving under a binding is solving the conditions with its values from the empty binding: with the
same error, or with solutions that are, one by one, the binding together with those. No tuple may start
with a variable whose value is the head of a negation or a guard. -/
theorem solve_subst (F : FactBase) (cs : List Condition) (b : Binding)
    (h : ∀ c ∈ cs, ∀ t ∈ c.tuples, t.KeepsHead b) :
    Alike (List.Forall₂ fun x y => x.IsUnion b y) (solve .builtin F cs b)
      (solve .builtin F (cs.map (Condition.subst b)) ∅) := by
  have hsearches : List.Forall₂ (Search.Substituted b) (cs.map (Condition.search .builtin F))
      ((cs.map (Condition.subst b)).map (Condition.search .builtin F)) := by
    rw [List.map_map, List.forall₂_map_left_iff, List.forall₂_map_right_iff]
    exact List.forall₂_same.2 fun c hc => c.search_substituted F (h c hc)
  exact Search.Corresponds.all hsearches b ∅ (Binding.IsUnion.empty_right b)

/-- With `edge` for `?0` and `1` for `?1`, the conditions `(?0 ?1 ?2) (not (?0 ?2 ?3)) (< ?1 ?2)` ask for
an end of an edge from `1` that is no start of another. The first of the two edges is none. -/
theorem solve_subst_edges :
    let edge : Atom := .symbol ⟨2⟩
    let v (i : Nat) : Term := .var ⟨i⟩
    let cs : List Condition := [.tuple [v 0, v 1, v 2], .negation [.tuple [v 0, v 2, v 3]],
      .guard (.binary (.order .lt) (.leaf (v 1)) (.leaf (v 2)))]
    let F : FactBase := .ofList [[edge, .integer 1, .integer 2], [edge, .integer 1, .integer 3],
      [edge, .integer 2, .integer 4]]
    let b : Binding := ⟨⟨[(0, edge), (1, .integer 1)], by decide⟩⟩
    let x : Binding := ⟨⟨[(0, edge), (1, .integer 1), (2, .integer 3)], by decide⟩⟩
    let y : Binding := ⟨⟨[(2, .integer 3)], by decide⟩⟩
    (∀ c ∈ cs, ∀ t ∈ c.tuples, t.KeepsHead b) ∧ solve .builtin F cs b = .ok [x] ∧
      solve .builtin F (cs.map (Condition.subst b)) ∅ = .ok [y] ∧ x.IsUnion b y := by
  intro edge v cs F b x y
  have hheads : ∀ c ∈ cs, ∀ t ∈ c.tuples, t.KeepsHead b := by decide +kernel
  have hx : solve .builtin F cs b = .ok [x] := by decide +kernel
  have hy : solve .builtin F (cs.map (Condition.subst b)) ∅ = .ok [y] := by decide +kernel
  have halike := solve_subst F cs b hheads
  rw [hx, hy] at halike
  refine ⟨hheads, hx, hy, ?_⟩
  cases halike with
  | ok h => exact (List.forall₂_cons.1 h).1

end ForwardChaining
