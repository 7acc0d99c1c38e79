import ForwardChaining.Proofs.Growth
import ForwardChaining.Proofs.Solving
import Mathlib.Logic.Embedding.Basic

/-!
# Renaming — solving does not depend on ordinals

A renaming of symbols keeps different symbols apart and leaves the reserved ones as they are; a renaming
of variables keeps different variables apart. Both may change the order of ordinals. What is matched,
evaluated or solved with renamed data is what is found without the renaming, renamed afterwards, or the
renamed error (`solve_rename`). Each operation has its lemma, stated with `carry`, which renames what a
computation yields.
-/

namespace ForwardChaining

/-! ## 1. Carrying results over -/

/-- What a computation yields, with the error and the result carried over to others. -/
def carry {ε ε' α α' : Type} (f : ε → ε') (g : α → α') : Except ε α → Except ε' α'
  | .error e => .error (f e)
  | .ok a => .ok (g a)

section Carry

variable {ε ε' α α' β β' : Type} {f : ε → ε'} {g : α → α'} {h : β → β'}

theorem carry_bind {x : Except ε α} {x' : Except ε' α'} {k : α → Except ε β} {k' : α' → Except ε' β'}
    (hx : x' = carry f g x) (hk : ∀ a, k' (g a) = carry f h (k a)) :
    x' >>= k' = carry f h (x >>= k) := by
  rw [hx]
  cases x with
  | error e => rfl
  | ok a => exact hk a

theorem carry_ite {p p' : Prop} [Decidable p] [Decidable p'] {x y : Except ε α} {x' y' : Except ε' α'}
    (hp : p' ↔ p) (hx : x' = carry f g x) (hy : y' = carry f g y) :
    (if p' then x' else y') = carry f g (if p then x else y) := by
  by_cases h : p
  · rw [if_pos h, if_pos (hp.2 h), hx]
  · rw [if_neg h, if_neg (mt hp.1 h), hy]

theorem carry_mapError {ω ω' : Type} {x : Except ε α} {x' : Except ε' α'} {m : ε → ω} {m' : ε' → ω'}
    {f' : ω → ω'} (hx : x' = carry f g x) (hm : ∀ e, m' (f e) = f' (m e)) :
    x'.mapError m' = carry f' g (x.mapError m) := by
  rw [hx]
  cases x with
  | error e => exact congrArg Except.error (hm e)
  | ok a => rfl

theorem carry_mapM {k : α → Except ε β} {k' : α' → Except ε' β'}
    (hk : ∀ a, k' (g a) = carry f h (k a)) (l : List α) :
    (l.map g).mapM k' = carry f (List.map h) (l.mapM k) := by
  induction l with
  | nil => rfl
  | cons a l ih =>
    rw [List.map_cons, List.mapM_cons, List.mapM_cons]
    exact carry_bind (hk a) fun b => carry_bind ih fun bs => rfl

theorem carry_filterMapM {k : α → Except ε (Option β)} {k' : α' → Except ε' (Option β')}
    (hk : ∀ a, k' (g a) = carry f (Option.map h) (k a)) (l : List α) :
    (l.map g).filterMapM k' = carry f (List.map h) (l.filterMapM k) := by
  rw [filterMapM_eq_map_mapM, filterMapM_eq_map_mapM, carry_mapM hk]
  cases l.mapM k with
  | error e => rfl
  | ok os =>
    -- what is dropped on one side is dropped on the other
    refine congrArg Except.ok ?_
    rw [List.filterMap_map, List.map_filterMap]
    rfl

theorem carry_anyM {p : α → Except ε Bool} {p' : α' → Except ε' Bool}
    (hp : ∀ a, p' (g a) = carry f id (p a)) (l : List α) :
    (l.map g).anyM p' = carry f id (l.anyM p) := by
  induction l with
  | nil => rfl
  | cons a l ih =>
    refine carry_bind (hp a) fun q => ?_
    cases q with
    | true => rfl
    | false => exact ih

end Carry

/-! ## 2. Renaming -/

/-- A renaming of symbols that keeps different symbols apart and the reserved ones in place. -/
structure SymbolRenaming where
  map : Symbol ↪ Symbol
  map_negation : map .negation = .negation
  map_guard : map .guard = .guard

section Terms

variable (ρ : SymbolRenaming) (π : Variable ↪ Variable)

def Atom.rename : Atom → Atom
  | .symbol s => .symbol (ρ.map s)
  | .integer i => .integer i

def Term.rename : Term → Term
  | .var v => .var (π v)
  | .const a => .const (a.rename ρ)

def Tuple.rename (t : Tuple) : Tuple :=
  t.map (Term.rename ρ π)

def Fact.rename (f : Fact) : Fact :=
  f.map (Atom.rename ρ)

def Expr.rename : Expr Term → Expr Term
  | .leaf t => .leaf (t.rename ρ π)
  | .binary op left right => .binary op left.rename right.rename
  | .not operand => .not operand.rename

mutual

def Condition.rename : Condition → Condition
  | .tuple t => .tuple (Tuple.rename ρ π t)
  | .form head args => .form (ρ.map head) (Argument.renameAll args)

def Argument.renameAll : List Argument → List Argument
  | [] => []
  | .term t :: args => .term (t.rename ρ π) :: Argument.renameAll args
  | .condition c :: args => .condition c.rename :: Argument.renameAll args
  | .expr e :: args => .expr (e.rename ρ π) :: Argument.renameAll args

end

/-- Renames the conditions and the conclusions. The names of the variables are for printing only. -/
def Rule.rename (r : Rule) : Rule :=
  { r with
    conditions := r.conditions.map (Condition.rename ρ π)
    conclusions := r.conclusions.map (Tuple.rename ρ π) }

/-- The entries of a binding for the renamed variables, with the renamed values. -/
def Binding.renamedSlots : List (Nat × Atom) → OrdinalMap Atom
  | [] => ∅
  | (k, a) :: rest => (Binding.renamedSlots rest).insert (π ⟨k⟩).ordinal (a.rename ρ)

def Binding.rename (b : Binding) : Binding where
  slots := Binding.renamedSlots ρ π b.slots.entries

theorem Atom.rename_injective : Function.Injective (Atom.rename ρ) := by
  intro a b h
  cases a with
  | symbol s =>
    cases b with
    | symbol s' => exact congrArg Atom.symbol (ρ.map.injective (Atom.symbol.inj h))
    | integer i => cases h
  | integer i =>
    cases b with
    | symbol s => cases h
    | integer j => exact h

theorem Fact.rename_injective : Function.Injective (Fact.rename ρ) :=
  List.map_injective_iff.2 (Atom.rename_injective ρ)

/-- The renamed facts in the same order. -/
def FactBase.rename (F : FactBase) : FactBase where
  facts := F.facts.map (Fact.rename ρ)
  nodup := F.nodup.map (Fact.rename_injective ρ)

def UnboundVariable.rename (e : UnboundVariable) : UnboundVariable :=
  ⟨π e.var⟩

def Rebinding.rename (e : Rebinding) : Rebinding :=
  ⟨π e.var, e.bound.rename ρ, e.given.rename ρ⟩

def EvalError.rename : EvalError → EvalError
  | .unbound v => .unbound (π v)
  | .operation e => .operation e

def Value.rename : Value → Value
  | .atom a => .atom (a.rename ρ)
  | .bool p => .bool p

def InferenceError.rename : InferenceError → InferenceError
  | .unbound v => .unbound (π v)
  | .guard e => .guard e
  | .malformed head reason => .malformed (head.map ρ.map) reason
  | .rebinding e => .rebinding (e.rename ρ π)
  | .invalidChoice index count => .invalidChoice index count

end Terms

variable {ρ : SymbolRenaming} {π : Variable ↪ Variable}

/-! ## 3. Bindings -/

namespace Binding

/-- A renamed variable has the renamed value. -/
theorem get?_rename (b : Binding) (v : Variable) :
    (b.rename ρ π).get? (π v) = (b.get? v).map (Atom.rename ρ) := by
  show (renamedSlots ρ π b.slots.entries).get? (π v).ordinal
    = (b.slots.entries.lookup v.ordinal).map (Atom.rename ρ)
  induction b.slots.entries with
  | nil => rfl
  | cons p rest ih =>
    obtain ⟨k, a⟩ := p
    rw [renamedSlots, OrdinalMap.get?_insert, ih, List.lookup_cons]
    by_cases hk : v.ordinal = k
    · subst hk
      rw [if_pos rfl, beq_self_eq_true]
      rfl
    · -- different variables stay different
      have hne : (π v).ordinal ≠ (π ⟨k⟩).ordinal := fun h =>
        hk (congrArg Variable.ordinal (π.injective (congrArg Variable.mk h)))
      rw [if_neg hne, beq_false_of_ne hk]

theorem get?_rename_of_forall_ne (b : Binding) {w : Variable} (hw : ∀ v, π v ≠ w) :
    (b.rename ρ π).get? w = none := by
  show (renamedSlots ρ π b.slots.entries).get? w.ordinal = none
  induction b.slots.entries with
  | nil => rfl
  | cons p rest ih =>
    obtain ⟨k, a⟩ := p
    have hne : w.ordinal ≠ (π ⟨k⟩).ordinal := fun h => hw ⟨k⟩ (congrArg Variable.mk h.symm)
    rw [renamedSlots, OrdinalMap.get?_insert, if_neg hne, ih]

theorem eq_rename_of_get? {b c : Binding} (h : ∀ v, c.get? (π v) = (b.get? v).map (Atom.rename ρ))
    (hout : ∀ w, (∀ v, π v ≠ w) → c.get? w = none) : c = b.rename ρ π := by
  refine ext_get? fun w => ?_
  by_cases hw : ∃ v, π v = w
  · obtain ⟨v, rfl⟩ := hw
    rw [h, get?_rename]
  · have hw : ∀ v, π v ≠ w := fun v hv => hw ⟨v, hv⟩
    rw [hout w hw, get?_rename_of_forall_ne b hw]

theorem extend_rename (b : Binding) (v : Variable) (a : Atom) :
    (b.rename ρ π).extend (π v) (a.rename ρ)
      = carry (Rebinding.rename ρ π) (Binding.rename ρ π) (b.extend v a) := by
  cases hb : b.get? v with
  | some old =>
    unfold extend
    rw [get?_rename, hb]
    exact carry_ite (Atom.rename_injective ρ).eq_iff rfl rfl
  | none =>
    -- a value for a new variable
    have hc : b.extend v a = .ok ⟨b.slots.insert v.ordinal a⟩ := by
      unfold extend
      rw [hb]
    have hc' : (b.rename ρ π).extend (π v) (a.rename ρ)
        = .ok ⟨(b.rename ρ π).slots.insert (π v).ordinal (a.rename ρ)⟩ := by
      unfold extend
      rw [get?_rename, hb]
      rfl
    rw [hc, hc']
    refine congrArg Except.ok (eq_rename_of_get? (fun u => ?_) fun w hw => ?_)
    · rw [get?_extend hc, get?_extend hc', get?_rename, apply_ite (Option.map (Atom.rename ρ))]
      simp only [π.injective.eq_iff]
      rfl
    · rw [get?_extend hc', if_neg (hw v).symm, get?_rename_of_forall_ne b hw]

end Binding

/-! ## 4. Grounding and matching -/

theorem Term.ground_rename (t : Term) (b : Binding) :
    (t.rename ρ π).ground (b.rename ρ π)
      = carry (UnboundVariable.rename π) (Atom.rename ρ) (t.ground b) := by
  cases t with
  | const a => rfl
  | var v =>
    unfold rename ground
    simp only [Binding.get?_rename]
    cases b.get? v with
    | none => rfl
    | some a => rfl

theorem Tuple.ground_rename (t : Tuple) (b : Binding) :
    (t.rename ρ π).ground (b.rename ρ π)
      = carry (UnboundVariable.rename π) (Fact.rename ρ) (t.ground b) :=
  carry_mapM (fun t => t.ground_rename b) t

theorem Term.matchAtom_rename (t : Term) (a : Atom) (b : Binding) :
    (t.rename ρ π).matchAtom (a.rename ρ) (b.rename ρ π)
      = carry (Rebinding.rename ρ π) (Option.map (Binding.rename ρ π)) (t.matchAtom a b) := by
  -- an atom is the expected one exactly if the renamed atom is
  have hsame : ∀ old : Atom,
      (Except.ok (if old.rename ρ = a.rename ρ then some (b.rename ρ π) else none) :
          Except Rebinding (Option Binding))
        = carry (Rebinding.rename ρ π) (Option.map (Binding.rename ρ π))
            (.ok (if old = a then some b else none)) := by
    intro old
    simp only [(Atom.rename_injective ρ).eq_iff]
    by_cases h : old = a
    · rw [if_pos h, if_pos h]
      rfl
    · rw [if_neg h, if_neg h]
      rfl
  cases t with
  | const c => exact hsame c
  | var v =>
    unfold rename matchAtom
    simp only [Binding.get?_rename]
    cases b.get? v with
    | some old => exact hsame old
    | none =>
      show ((b.rename ρ π).extend (π v) (a.rename ρ)).map some = _
      rw [Binding.extend_rename]
      cases b.extend v a with
      | error e => rfl
      | ok c => rfl

theorem Tuple.matchFact_rename (t : Tuple) (f : Fact) (b : Binding) :
    (t.rename ρ π).matchFact (f.rename ρ) (b.rename ρ π)
      = carry (Rebinding.rename ρ π) (Option.map (Binding.rename ρ π)) (t.matchFact f b) := by
  induction t generalizing f b with
  | nil =>
    cases f with
    | nil => rfl
    | cons a f => rfl
  | cons t ts ih =>
    cases f with
    | nil => rfl
    | cons a f =>
      refine carry_bind (t.matchAtom_rename a b) fun o => ?_
      cases o with
      | none => rfl
      | some c => exact ih f c

theorem FactBase.query_rename (F : FactBase) (t : Tuple) (b : Binding) :
    (F.rename ρ).query (t.rename ρ π) (b.rename ρ π)
      = carry (Rebinding.rename ρ π) (List.map (Binding.rename ρ π)) (F.query t b) :=
  carry_filterMapM (fun f => t.matchFact_rename f b) F.facts

/-! ## 5. Evaluation -/

theorem Value.truth_rename (asker : Asker) (x : Value) :
    (x.rename ρ).truth asker = carry (EvalError.rename π) id (x.truth asker) := by
  cases x with
  | atom a => rfl
  | bool p => rfl

theorem Value.number_rename (asker : Asker) (x : Value) :
    (x.rename ρ).number asker = carry (EvalError.rename π) id (x.number asker) := by
  cases x with
  | bool p => rfl
  | atom a =>
    cases a with
    | symbol s => rfl
    | integer i => rfl

theorem Value.compareWith_rename (op : EqualityOp) (x y : Value) :
    (x.rename ρ).compareWith op (y.rename ρ)
      = carry (EvalError.rename π) id (x.compareWith op y) := by
  cases x with
  | bool p =>
    cases y with
    | bool q => rfl
    | atom a => rfl
  | atom a =>
    cases y with
    | bool q => rfl
    | atom a' =>
      refine congrArg Except.ok ?_
      show op.holds (a.rename ρ) (a'.rename ρ) = op.holds a a'
      cases op with
      | eq => exact decide_eq_decide.2 (Atom.rename_injective ρ).eq_iff
      | ne => exact decide_eq_decide.2 (Atom.rename_injective ρ).ne_iff

theorem ArithOp.value_rename (op : ArithOp) (l r : Integer) :
    op.value l r = carry (EvalError.rename π) (Value.rename ρ) (op.value l r) := by
  unfold value
  cases op.apply l r with
  | none => rfl
  | some i => rfl

theorem Expr.eval_rename (e : Expr Term) (b : Binding) :
    (e.rename ρ π).eval (b.rename ρ π)
      = carry (EvalError.rename π) (Value.rename ρ) (e.eval b) := by
  induction e with
  | leaf t =>
    unfold rename eval
    simp only [Term.ground_rename]
    cases t.ground b with
    | error e => rfl
    | ok a => rfl
  | not operand ih =>
    refine carry_bind ih fun x => carry_bind (x.truth_rename .not) fun p => rfl
  | binary op left right ihl ihr =>
    cases op with
    | logic op =>
      refine carry_bind ihl fun x => carry_bind (x.truth_rename _) fun p => ?_
      refine carry_ite Iff.rfl rfl ?_
      exact carry_bind ihr fun y => carry_bind (y.truth_rename _) fun q => rfl
    | equality op =>
      refine carry_bind ihl fun x => carry_bind ihr fun y => ?_
      exact carry_bind (x.compareWith_rename op y) fun p => rfl
    | order op =>
      refine carry_bind ihl fun x => carry_bind (x.number_rename _) fun l => ?_
      exact carry_bind ihr fun y => carry_bind (y.number_rename _) fun r => rfl
    | arith op =>
      refine carry_bind ihl fun x => carry_bind (x.number_rename _) fun l => ?_
      exact carry_bind ihr fun y => carry_bind (y.number_rename _) fun r => op.value_rename l r

theorem Expr.holds_rename (e : Expr Term) (b : Binding) :
    (e.rename ρ π).holds (b.rename ρ π) = carry (EvalError.rename π) id (e.holds b) :=
  carry_bind (e.eval_rename b) fun x => x.truth_rename .guard

/-! ## 6. Forms -/

/-- Whether a search finds under renamed bindings what another finds, renamed. -/
def Search.Renamed (ρ : SymbolRenaming) (π : Variable ↪ Variable) (s s' : Search) : Prop :=
  ∀ b, s' (b.rename ρ π) = carry (InferenceError.rename ρ π) (List.map (Binding.rename ρ π)) (s b)

theorem Search.all_renamed {ss ss' : List Search} (h : List.Forall₂ (Search.Renamed ρ π) ss ss') :
    Search.Renamed ρ π (Search.all ss) (Search.all ss') := by
  induction h with
  | nil => exact fun _ => rfl
  | cons hs _ ih =>
    intro b
    refine carry_bind (hs b) fun sols => carry_bind (carry_mapM ih sols) fun groups => ?_
    exact congrArg Except.ok List.map_flatten.symm

/-- Whether a form resolves a renamed condition as it resolves the condition, given renamed searches of
the nested conditions. -/
def Form.Renamed (ρ : SymbolRenaming) (π : Variable ↪ Variable) (form : Form) : Prop :=
  ∀ F c nested nested', List.Forall₂ (Search.Renamed ρ π) nested nested' →
    Search.Renamed ρ π (form.resolve F c nested)
      (form.resolve (F.rename ρ) (Condition.rename ρ π c) nested')

theorem Condition.head?_rename (c : Condition) :
    (c.rename ρ π).head? = c.head?.map ρ.map := by
  cases c with
  | form head args => rfl
  | tuple t =>
    cases t with
    | nil => rfl
    | cons t ts =>
      cases t with
      | var v => rfl
      | const a =>
        cases a with
        | symbol s => rfl
        | integer i => rfl

theorem Form.reject_rename {α β : Type} (g : α → β) (c : Condition) (reason : ShapeError) :
    reject (c.rename ρ π) reason = carry (InferenceError.rename ρ π) g (reject c reason) := by
  show Except.error (InferenceError.malformed (c.rename ρ π).head? reason) = _
  rw [Condition.head?_rename]
  rfl

theorem Form.factMatch_renamed : Form.Renamed ρ π .factMatch := by
  intro F c nested nested' _ b
  cases c with
  | tuple t => exact carry_mapError (F.query_rename t b) fun e => rfl
  | form head args => exact reject_rename _ _ .unregistered

theorem Argument.all_condition?_renameAll (args : List Argument) :
    (renameAll ρ π args).all (·.condition?.isSome) = args.all (·.condition?.isSome) := by
  induction args with
  | nil => rfl
  | cons arg args ih =>
    cases arg with
    | term t => rfl
    | expr e => rfl
    | condition c => exact ih

theorem Form.negation_renamed : Form.Renamed ρ π .negation := by
  intro F c nested nested' hnested b
  cases c with
  | tuple t => exact reject_rename _ (.tuple t) .negation
  | form head args =>
    refine carry_ite (by rw [Argument.all_condition?_renameAll]) ?_
      (reject_rename _ (.form head args) .negation)
    refine carry_bind (Search.all_renamed hnested b) fun sols => ?_
    -- whether there is a solution is all that counts
    cases sols with
    | nil => rfl
    | cons x sols => rfl

theorem Argument.exists_of_renameAll_eq {args : List Argument} {e' : Expr Term}
    (h : renameAll ρ π args = [.expr e']) : ∃ e, args = [.expr e] := by
  match args with
  | .expr e :: [] => exact ⟨e, rfl⟩
  | .expr e :: .term t :: args => cases h
  | .expr e :: .condition c :: args => cases h
  | .expr e :: .expr e₁ :: args => cases h

theorem Form.guard_renamed : Form.Renamed ρ π .guard := by
  intro F c nested nested' _ b
  cases c with
  | tuple t => exact reject_rename _ (.tuple t) .guard
  | form head args =>
    -- a single expression is evaluated, anything else is refused
    by_cases h : ∃ e, args = [.expr e]
    · obtain ⟨e, rfl⟩ := h
      refine carry_bind (carry_mapError (e.holds_rename b) fun err => ?_) fun p => ?_
      · cases err with
        | unbound v => rfl
        | operation err => rfl
      · cases p with
        | true => rfl
        | false => rfl
    · have hargs : ∀ e, args ≠ [.expr e] := fun e he => h ⟨e, he⟩
      have hargs' : ∀ e, Argument.renameAll ρ π args ≠ [.expr e] := fun e he =>
        h (Argument.exists_of_renameAll_eq he)
      rw [guard_eq_reject hargs]
      exact (guard_eq_reject hargs' _ _ _ _).trans (reject_rename _ (.form head args) .guard)

/-! ## 7. Solving -/

theorem Registry.find?_builtin_rename (head : Symbol) :
    builtin.find? (ρ.map head) = builtin.find? head := by
  -- only a symbol that stays in place can be sent to its place
  have hiff : ∀ s, ρ.map s = s → (ρ.map head = s ↔ head = s) := fun s hs =>
    ⟨fun h => ρ.map.injective (h.trans hs.symm), fun h => h ▸ hs⟩
  rw [find?_builtin, find?_builtin]
  simp only [hiff .guard ρ.map_guard, hiff .negation ρ.map_negation]

theorem Registry.lookup_builtin_rename (c : Condition) :
    builtin.lookup (c.rename ρ π) = builtin.lookup c := by
  unfold lookup
  rw [Condition.head?_rename]
  cases c.head? with
  | none => rfl
  | some head => exact congrArg (Option.getD · .factMatch) (find?_builtin_rename head)

theorem Registry.lookup_builtin_renamed (c : Condition) : (builtin.lookup c).Renamed ρ π := by
  unfold lookup
  cases c.head? with
  | none => exact Form.factMatch_renamed
  | some head =>
    show ((builtin.find? head).getD .factMatch).Renamed ρ π
    rw [find?_builtin]
    by_cases hg : head = .guard
    · rw [if_pos hg]
      exact Form.guard_renamed
    · rw [if_neg hg]
      by_cases hn : head = .negation
      · rw [if_pos hn]
        exact Form.negation_renamed
      · rw [if_neg hn]
        exact Form.factMatch_renamed

theorem Registry.resolve_renamed (F : FactBase) (c : Condition) {nested nested' : List Search}
    (h : List.Forall₂ (Search.Renamed ρ π) nested nested') :
    Search.Renamed ρ π ((builtin.lookup c).resolve F c nested)
      ((builtin.lookup (c.rename ρ π)).resolve (F.rename ρ) (c.rename ρ π) nested') := by
  rw [lookup_builtin_rename]
  exact lookup_builtin_renamed c F c nested nested' h

mutual

theorem Condition.search_renamed (F : FactBase) : (c : Condition) →
    Search.Renamed ρ π (c.search .builtin F) ((c.rename ρ π).search .builtin (F.rename ρ))
  | .tuple t => Registry.resolve_renamed F (.tuple t) .nil
  | .form head args => Registry.resolve_renamed F (.form head args) (Argument.searches_renamed F args)

theorem Argument.searches_renamed (F : FactBase) : (args : List Argument) →
    List.Forall₂ (Search.Renamed ρ π) (Argument.searches .builtin F args)
      (Argument.searches .builtin (F.rename ρ) (Argument.renameAll ρ π args))
  | [] => .nil
  | .term _ :: args => Argument.searches_renamed F args
  | .condition c :: args => .cons (c.search_renamed F) (Argument.searches_renamed F args)
  | .expr _ :: args => Argument.searches_renamed F args

end

/-- Renamed conditions have the renamed solutions over renamed facts, in the same order, or fail with
the renamed error. -/
theorem solve_rename (F : FactBase) (cs : List Condition) (b : Binding) :
    solve .builtin (F.rename ρ) (cs.map (Condition.rename ρ π)) (b.rename ρ π)
      = carry (InferenceError.rename ρ π) (List.map (Binding.rename ρ π)) (solve .builtin F cs b) := by
  refine Search.all_renamed ?_ b
  rw [List.map_map, List.forall₂_map_left_iff, List.forall₂_map_right_iff]
  exact List.forall₂_same.2 fun c _ => c.search_renamed F

theorem Rule.solutions_rename (r : Rule) (F : FactBase) :
    (r.rename ρ π).solutions .builtin (F.rename ρ)
      = carry (InferenceError.rename ρ π) (List.map (Binding.rename ρ π))
          (r.solutions .builtin F) :=
  solve_rename F r.conditions ∅

end ForwardChaining
