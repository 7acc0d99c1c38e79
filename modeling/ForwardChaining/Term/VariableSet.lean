import ForwardChaining.OrdinalMap
import ForwardChaining.Term.Basic

/-!
# Sets of variables

A `VariableSet` holds variables without repetition and lists them in ascending order.
-/

namespace ForwardChaining

structure VariableSet where
  ordinals : OrdinalMap Unit
deriving DecidableEq

namespace VariableSet

instance : EmptyCollection VariableSet where
  emptyCollection := ⟨∅⟩

instance : Membership Variable VariableSet where
  mem s v := (s.ordinals.get? v.ordinal).isSome

instance (s : VariableSet) (v : Variable) : Decidable (v ∈ s) :=
  inferInstanceAs (Decidable ((s.ordinals.get? v.ordinal).isSome = true))

def insert (s : VariableSet) (v : Variable) : VariableSet :=
  ⟨s.ordinals.insert v.ordinal ()⟩

def insertAll (s : VariableSet) (vs : List Variable) : VariableSet :=
  vs.foldl insert s

/-- The variables in ascending order. -/
def toList (s : VariableSet) : List Variable :=
  s.ordinals.keys.map Variable.mk

variable {s : VariableSet} {v w : Variable} {vs ws : List Variable}

theorem notMem_empty : v ∉ (∅ : VariableSet) :=
  Bool.false_ne_true

theorem mem_insert : v ∈ s.insert w ↔ v = w ∨ v ∈ s := by
  show ((s.ordinals.insert w.ordinal ()).get? v.ordinal).isSome ↔ v = w ∨ (s.ordinals.get? v.ordinal).isSome
  rw [OrdinalMap.get?_insert, ← Variable.ordinal_inj]
  by_cases h : v.ordinal = w.ordinal
  · rw [if_pos h]
    exact iff_of_true rfl (Or.inl h)
  · rw [if_neg h]
    exact (or_iff_right h).symm

theorem mem_insertAll : v ∈ s.insertAll vs ↔ v ∈ s ∨ v ∈ vs := by
  induction vs generalizing s with
  | nil => exact (or_iff_left List.not_mem_nil).symm
  | cons w vs ih =>
    show v ∈ (s.insert w).insertAll vs ↔ _
    rw [ih, mem_insert, List.mem_cons, or_comm (a := v = w), or_assoc]

theorem mem_insertAll_empty : v ∈ insertAll ∅ vs ↔ v ∈ vs :=
  mem_insertAll.trans (or_iff_right notMem_empty)

theorem insertAll_append : s.insertAll (vs ++ ws) = (s.insertAll vs).insertAll ws :=
  List.foldl_append

theorem mem_toList : v ∈ s.toList ↔ v ∈ s := by
  rw [toList, List.mem_map]
  constructor
  · rintro ⟨k, hk, rfl⟩
    exact (OrdinalMap.mem_keys_iff s.ordinals k).1 hk
  · intro h
    exact ⟨v.ordinal, (OrdinalMap.mem_keys_iff s.ordinals _).2 h, rfl⟩

end VariableSet

/-- The variables of a list in ascending order, each once. -/
def ascending (vs : List Variable) : List Variable :=
  (VariableSet.insertAll ∅ vs).toList

@[simp] theorem mem_ascending {vs : List Variable} {v : Variable} : v ∈ ascending vs ↔ v ∈ vs := by
  rw [ascending, VariableSet.mem_toList, VariableSet.mem_insertAll_empty]

end ForwardChaining
