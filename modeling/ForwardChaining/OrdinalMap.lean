/-!
# Ordinal maps — finite maps keyed by ordinals

`OrdinalMap α` is a finite map from natural numbers to `α`. Its entries are kept in strictly
ascending order of the key, so a map has one representation: two maps that answer `get?` alike are
equal (`OrdinalMap.ext_get?`). Bindings, form registries and variable tallies are such maps.
-/

namespace ForwardChaining

structure OrdinalMap (α : Type) where
  entries : List (Nat × α)
  ascending : entries.Pairwise (fun p q => p.1 < q.1)
deriving DecidableEq

namespace OrdinalMap

variable {α : Type}

/-! ## 1. Operations -/

instance : EmptyCollection (OrdinalMap α) where
  emptyCollection := ⟨[], .nil⟩

def get? (m : OrdinalMap α) (k : Nat) : Option α :=
  m.entries.lookup k

/-- Writes `x` at `k` into an ascending list, over the entry that may be there. -/
def place (k : Nat) (x : α) : List (Nat × α) → List (Nat × α)
  | [] => [(k, x)]
  | (j, y) :: rest =>
    if k < j then (k, x) :: (j, y) :: rest
    else if k = j then (k, x) :: rest
    else (j, y) :: place k x rest

theorem key_of_mem_place {k : Nat} {x : α} {l : List (Nat × α)} {p : Nat × α}
    (h : p ∈ place k x l) : p.1 = k ∨ p ∈ l := by
  induction l with
  | nil => simp_all [place]
  | cons q rest ih => grind [place]

theorem ascending_place {k : Nat} {x : α} {l : List (Nat × α)}
    (h : l.Pairwise (fun p q => p.1 < q.1)) :
    (place k x l).Pairwise (fun p q => p.1 < q.1) := by
  induction l with
  | nil => simp [place]
  | cons q rest ih =>
    obtain ⟨hq, hrest⟩ := List.pairwise_cons.1 h
    obtain ⟨j, y⟩ := q
    simp only [place]
    split
    · next hlt =>
      refine List.pairwise_cons.2 ⟨fun p hp => ?_, h⟩
      rcases List.mem_cons.1 hp with rfl | hp
      · exact hlt
      · exact Nat.lt_trans hlt (hq p hp)
    · split
      · next heq => exact List.pairwise_cons.2 ⟨fun p hp => heq ▸ hq p hp, hrest⟩
      · next hge hne =>
        refine List.pairwise_cons.2 ⟨fun p hp => ?_, ih hrest⟩
        rcases key_of_mem_place hp with hk | hp
        · show j < p.1
          omega
        · exact hq p hp

/-- The map that answers `x` at `k` and is unchanged elsewhere. -/
def insert (m : OrdinalMap α) (k : Nat) (x : α) : OrdinalMap α :=
  ⟨place k x m.entries, ascending_place m.ascending⟩

def keys (m : OrdinalMap α) : List Nat :=
  m.entries.map (·.1)

def size (m : OrdinalMap α) : Nat :=
  m.entries.length

/-! ## 2. The view through `get?` -/

theorem lookup_place (k j : Nat) (x : α) (l : List (Nat × α))
    (h : l.Pairwise (fun p q => p.1 < q.1)) :
    (place k x l).lookup j = if j = k then some x else l.lookup j := by
  induction l with
  | nil => by_cases hj : j = k <;> simp [place, hj]
  | cons q rest ih =>
    have := List.pairwise_cons.1 h
    grind [place]

@[simp, grind =] theorem get?_empty (k : Nat) : (∅ : OrdinalMap α).get? k = none := rfl

@[grind =] theorem get?_insert (m : OrdinalMap α) (k j : Nat) (x : α) :
    (m.insert k x).get? j = if j = k then some x else m.get? j :=
  lookup_place k j x m.entries m.ascending

theorem lookup_eq_some_iff_mem {l : List (Nat × α)} {k : Nat} {x : α}
    (h : l.Pairwise (fun p q => p.1 < q.1)) : l.lookup k = some x ↔ (k, x) ∈ l := by
  induction l with
  | nil => simp
  | cons q rest ih =>
    obtain ⟨hq, hrest⟩ := List.pairwise_cons.1 h
    obtain ⟨j, y⟩ := q
    rw [List.lookup_cons, List.mem_cons, ← ih hrest]
    by_cases hk : k = j
    · subst hk
      have : rest.lookup k ≠ some x := fun hx => by
        have := hq _ ((ih hrest).1 hx)
        simp at this
      simp [this, eq_comm]
    · simp [beq_false_of_ne hk, hk]

@[grind =] theorem mem_entries_iff (m : OrdinalMap α) (k : Nat) (x : α) :
    (k, x) ∈ m.entries ↔ m.get? k = some x :=
  (lookup_eq_some_iff_mem m.ascending).symm

theorem mem_keys_iff (m : OrdinalMap α) (k : Nat) : k ∈ m.keys ↔ (m.get? k).isSome := by
  simp [keys, Option.isSome_iff_exists, ← mem_entries_iff]

theorem entries_eq_of_mem_iff {l₁ l₂ : List (Nat × α)}
    (h₁ : l₁.Pairwise (fun p q => p.1 < q.1)) (h₂ : l₂.Pairwise (fun p q => p.1 < q.1))
    (h : ∀ p, p ∈ l₁ ↔ p ∈ l₂) : l₁ = l₂ := by
  induction l₁ generalizing l₂ with
  | nil =>
    cases l₂ with
    | nil => rfl
    | cons q r => exact absurd ((h q).2 (by simp)) (by simp)
  | cons p r ih =>
    cases l₂ with
    | nil => exact absurd ((h p).1 (by simp)) (by simp)
    | cons q s =>
      obtain ⟨hp, hr⟩ := List.pairwise_cons.1 h₁
      obtain ⟨hq, hs⟩ := List.pairwise_cons.1 h₂
      -- the least member of either list is its head
      have hpq : p = q := by
        rcases List.mem_cons.1 ((h p).1 (by simp)) with e | e
        · exact e
        · rcases List.mem_cons.1 ((h q).2 (by simp)) with e' | e'
          · exact e'.symm
          · exact absurd (hp q e') (by have := hq p e; omega)
      subst hpq
      congr 1
      refine ih hr hs fun x => ⟨fun hx => ?_, fun hx => ?_⟩
      · rcases List.mem_cons.1 ((h x).1 (List.mem_cons_of_mem _ hx)) with e | e
        · exact absurd (hp x hx) (by simp [e])
        · exact e
      · rcases List.mem_cons.1 ((h x).2 (List.mem_cons_of_mem _ hx)) with e | e
        · exact absurd (hq x hx) (by simp [e])
        · exact e

/-- A map is determined by its answers. -/
theorem ext_get? {m n : OrdinalMap α} (h : ∀ k, m.get? k = n.get? k) : m = n := by
  have : m.entries = n.entries :=
    entries_eq_of_mem_iff m.ascending n.ascending fun ⟨k, x⟩ => by
      rw [mem_entries_iff, mem_entries_iff, h]
  cases m
  cases n
  simp_all

end OrdinalMap

end ForwardChaining
