import ForwardChaining.Term.Instantiation

/-!
# Fact bases — the set of known facts

A `FactBase` is a set of facts that remembers the order in which they came. It only grows: a union
keeps the facts at hand in their places and appends the new ones. Queries answer in that order.
-/

namespace ForwardChaining

/-- A set of facts, oldest first. It is the insertion-ordered set of a collection library, of which three
properties are taken over: an element stays in the place where it was first inserted, no element is there
twice, and equality, which is `≈` here, is that of sets. -/
structure FactBase where
  facts : List Fact
  nodup : facts.Nodup
deriving DecidableEq

namespace FactBase

instance : EmptyCollection FactBase where
  emptyCollection := ⟨[], .nil⟩

instance : Membership Fact FactBase where
  mem F f := f ∈ F.facts

instance (f : Fact) (F : FactBase) : Decidable (f ∈ F) :=
  inferInstanceAs (Decidable (f ∈ F.facts))

/-- One fact base is part of another if the other knows all its facts. -/
instance : HasSubset FactBase where
  Subset F G := ∀ f ∈ F.facts, f ∈ G

instance (F G : FactBase) : Decidable (F ⊆ G) :=
  inferInstanceAs (Decidable (∀ f ∈ F.facts, f ∈ G))

/-- Fact bases with the same facts are equivalent, whatever the order. -/
instance : HasEquiv FactBase where
  Equiv F G := F ⊆ G ∧ G ⊆ F

instance (F G : FactBase) : Decidable (F ≈ G) :=
  inferInstanceAs (Decidable (F ⊆ G ∧ G ⊆ F))

def size (F : FactBase) : Nat :=
  F.facts.length

def isEmpty (F : FactBase) : Bool :=
  F.facts.isEmpty

/-- Appends a fact unless it is known. -/
def insert (F : FactBase) (f : Fact) : FactBase :=
  if h : f ∈ F then F
  else ⟨F.facts ++ [f], List.nodup_append.2 ⟨F.nodup, by simp, by
    rintro g hg _ hf rfl
    exact h (List.mem_singleton.1 hf ▸ hg)⟩⟩

/-- Appends those of the given facts that are not known, in their order. -/
def union (F : FactBase) (fs : List Fact) : FactBase :=
  fs.foldl insert F

/-- The fact base with the given facts, each at its first place. -/
def ofList (fs : List Fact) : FactBase :=
  union ∅ fs

def containsAll (F : FactBase) (fs : List Fact) : Bool :=
  fs.all (· ∈ F)

/-- The bindings beyond `b` under which the tuple is a known fact, in the order of the facts. -/
def query (F : FactBase) (t : Tuple) (b : Binding) : Except Rebinding (List Binding) :=
  F.facts.filterMapM (t.matchFact · b)

def sorted (F : FactBase) : List Fact :=
  F.facts.mergeSort Fact.le

/-! ## The view through membership -/

@[simp] theorem mem_facts {f : Fact} {F : FactBase} : f ∈ F.facts ↔ f ∈ F := Iff.rfl

@[simp] theorem not_mem_empty (f : Fact) : f ∉ (∅ : FactBase) := List.not_mem_nil

@[simp] theorem mem_insert {F : FactBase} {f g : Fact} : g ∈ F.insert f ↔ g ∈ F ∨ g = f := by
  simp only [insert]
  split
  · next h =>
    constructor
    · exact Or.inl
    · rintro (hg | rfl)
      · exact hg
      · exact h
  · exact List.mem_append.trans (or_congr Iff.rfl List.mem_singleton)

@[simp] theorem mem_union {F : FactBase} {fs : List Fact} {g : Fact} :
    g ∈ F.union fs ↔ g ∈ F ∨ g ∈ fs := by
  simp only [union]
  induction fs generalizing F with
  | nil => simp
  | cons f fs ih => rw [List.foldl_cons, ih, mem_insert, List.mem_cons, or_assoc]

@[simp] theorem mem_ofList {fs : List Fact} {g : Fact} : g ∈ ofList fs ↔ g ∈ fs := by
  simp [ofList]

theorem mem_of_subset {F G : FactBase} (h : F ⊆ G) {f : Fact} (hf : f ∈ F) : f ∈ G :=
  h f hf

theorem subset_refl (F : FactBase) : F ⊆ F :=
  fun _ hf => hf

theorem subset_trans {F G H : FactBase} (h : F ⊆ G) (h' : G ⊆ H) : F ⊆ H :=
  fun f hf => h' f (h f hf)

theorem subset_union (F : FactBase) (fs : List Fact) : F ⊆ F.union fs :=
  fun _ hf => mem_union.2 (Or.inl hf)

theorem union_subset {F G : FactBase} {fs : List Fact} (h : F ⊆ G) (hfs : ∀ f ∈ fs, f ∈ G) :
    F.union fs ⊆ G :=
  fun f hf => (mem_union.1 hf).elim (h f) (hfs f)

theorem equiv_iff {F G : FactBase} : F ≈ G ↔ ∀ f, f ∈ F ↔ f ∈ G :=
  ⟨fun h f => ⟨h.1 f, h.2 f⟩, fun h => ⟨fun f => (h f).1, fun f => (h f).2⟩⟩

end FactBase

end ForwardChaining
