import ForwardChaining.OrdinalMap
import ForwardChaining.Term.Basic

/-!
# Bindings — what the variables of a rule stand for

A `Binding` is a finite map from variables to atoms. It only grows: `Binding.extend` refuses to give
a variable a second, different value.
-/

namespace ForwardChaining

/-- A finite map from variables to atoms, kept by the ordinals of the variables. -/
structure Binding where
  slots : OrdinalMap Atom
deriving DecidableEq

/-- The refusal to give the value `given` to a variable that has the value `bound`. -/
structure Rebinding where
  var : Variable
  bound : Atom
  given : Atom
deriving DecidableEq, Repr

namespace Rebinding

def message (_ : Rebinding) : String :=
  "variables must not be rebound"

end Rebinding

namespace Binding

instance : EmptyCollection Binding where
  emptyCollection := ⟨∅⟩

def get? (b : Binding) (v : Variable) : Option Atom :=
  b.slots.get? v.ordinal

def isBound (b : Binding) (v : Variable) : Bool :=
  (b.get? v).isSome

/-- The binding that gives `a` to `v` besides. The value that `v` has already may be given again. -/
def extend (b : Binding) (v : Variable) (a : Atom) : Except Rebinding Binding :=
  match b.get? v with
  | none => .ok ⟨b.slots.insert v.ordinal a⟩
  | some old => if old = a then .ok b else .error ⟨v, old, a⟩

def ofList (pairs : List (Variable × Atom)) : Except Rebinding Binding :=
  pairs.foldlM (fun b p => b.extend p.1 p.2) ∅

/-- The variables with their values, in ascending order of the variable. -/
def toList (b : Binding) : List (Variable × Atom) :=
  b.slots.entries.map fun p => (⟨p.1⟩, p.2)

def size (b : Binding) : Nat :=
  b.slots.size

def isEmpty (b : Binding) : Bool :=
  b.size = 0

/-- One binding is part of another that gives its variables the same values. -/
instance : HasSubset Binding where
  Subset b c := ∀ p ∈ b.toList, c.get? p.1 = some p.2

instance (b c : Binding) : Decidable (b ⊆ c) :=
  inferInstanceAs (Decidable (∀ p ∈ b.toList, c.get? p.1 = some p.2))

/-- The values of the variables up to the greatest that has one, by ordinal. -/
def row (b : Binding) : List (Option Atom) :=
  (List.range (b.slots.keys.getLast?.elim 0 (· + 1))).map b.slots.get?

/-! ## The view through `get?` -/

@[simp, grind =] theorem get?_empty (v : Variable) : (∅ : Binding).get? v = none := rfl

theorem ext_get? {b c : Binding} (h : ∀ v, b.get? v = c.get? v) : b = c := by
  cases b
  cases c
  congr 1
  exact OrdinalMap.ext_get? fun k => h ⟨k⟩

theorem mem_toList_iff (b : Binding) (v : Variable) (a : Atom) :
    (v, a) ∈ b.toList ↔ b.get? v = some a := by
  simp only [toList, get?, List.mem_map, ← OrdinalMap.mem_entries_iff]
  constructor
  · rintro ⟨p, hp, h⟩
    cases h
    exact hp
  · intro h
    exact ⟨(v.ordinal, a), h, rfl⟩

theorem subset_iff (b c : Binding) :
    b ⊆ c ↔ ∀ v a, b.get? v = some a → c.get? v = some a := by
  constructor
  · intro h v a hb
    exact h (v, a) ((mem_toList_iff b v a).2 hb)
  · intro h p hp
    exact h p.1 p.2 ((mem_toList_iff b p.1 p.2).1 hp)

theorem isBound_iff (b : Binding) (v : Variable) : b.isBound v ↔ ∃ a, b.get? v = some a :=
  Option.isSome_iff_exists

theorem subset_refl (b : Binding) : b ⊆ b :=
  (subset_iff b b).2 fun _ _ h => h

theorem subset_trans {b c d : Binding} (h : b ⊆ c) (h' : c ⊆ d) : b ⊆ d :=
  (subset_iff b d).2 fun v a hb => (subset_iff c d).1 h' v a ((subset_iff b c).1 h v a hb)

theorem get?_of_subset {b c : Binding} (h : b ⊆ c) {v : Variable} {a : Atom}
    (hv : b.get? v = some a) : c.get? v = some a :=
  (subset_iff b c).1 h v a hv

theorem isBound_of_subset {b c : Binding} (h : b ⊆ c) {v : Variable} (hv : b.isBound v) :
    c.isBound v := by
  obtain ⟨a, ha⟩ := (isBound_iff b v).1 hv
  exact (isBound_iff c v).2 ⟨a, get?_of_subset h ha⟩

theorem eq_of_subset {b c : Binding} (h : b ⊆ c) (hdom : ∀ v, c.isBound v → b.isBound v) :
    b = c := by
  refine ext_get? fun v => ?_
  cases hc : c.get? v with
  | some a =>
    obtain ⟨a', ha'⟩ := (isBound_iff b v).1 (hdom v ((isBound_iff c v).2 ⟨a, hc⟩))
    rw [ha', ← hc, get?_of_subset h ha']
  | none =>
    cases hb : b.get? v with
    | some a => rw [get?_of_subset h hb] at hc; cases hc
    | none => rfl

/-- An extension is refused exactly if the variable has another value. -/
theorem extend_eq_error_iff (b : Binding) (v : Variable) (a : Atom) (e : Rebinding) :
    b.extend v a = .error e ↔ ∃ old, b.get? v = some old ∧ old ≠ a ∧ e = ⟨v, old, a⟩ := by
  simp only [extend]
  grind

theorem get?_extend {b c : Binding} {v : Variable} {a : Atom} (h : b.extend v a = .ok c)
    (w : Variable) : c.get? w = if w = v then some a else b.get? w := by
  simp only [extend] at h
  split at h
  · cases h
    cases v
    cases w
    simp only [get?, OrdinalMap.get?_insert, Variable.mk.injEq]
  · next old hold =>
    split at h
    · next ho =>
      cases h
      grind
    · cases h

end Binding

end ForwardChaining
