import ForwardChaining.Term.Basic

/-!
# Symbol stores — names of symbols, and symbols of names

A `SymbolStore` numbers names in the order in which they are first seen. It keeps them twice: in a list, which
is read for the name of a symbol, and in a map, which is read for the symbol of a name. Nothing in a store says
that the two agree. They do at the start and after a name has been interned where they did before
(`SymbolStore.inverse_initial`, `SymbolStore.Inverse.intern`).
-/

namespace ForwardChaining

structure SymbolStore where
  /-- The names by the ordinal of the symbol. -/
  names : List String
  /-- The symbols by name. Of several entries for a name the first one counts. -/
  symbols : List (String × Symbol)
deriving DecidableEq

theorem getElem?_concat {α : Type} (l : List α) (x : α) (n : Nat) :
    (l ++ [x])[n]? = if n = l.length then some x else l[n]? := by
  rcases Nat.lt_trichotomy n l.length with h | h | h
  · rw [List.getElem?_append_left h, if_neg (Nat.ne_of_lt h)]
  · rw [h, List.getElem?_concat_length, if_pos rfl]
  · rw [if_neg (Nat.ne_of_gt h), List.getElem?_eq_none (Nat.le_of_lt h), List.getElem?_eq_none]
    rw [List.length_append, List.length_singleton]
    exact h

namespace SymbolStore

instance : EmptyCollection SymbolStore where
  emptyCollection := ⟨[], []⟩

def find? (t : SymbolStore) (name : String) : Option Symbol :=
  t.symbols.lookup name

def name? (t : SymbolStore) (s : Symbol) : Option String :=
  t.names[s.ordinal]?

def size (t : SymbolStore) : Nat :=
  t.names.length

def isEmpty (t : SymbolStore) : Bool :=
  t.names.isEmpty

/-- The symbol with a name. A new name gets the next ordinal and is entered in both parts. -/
def intern (name : String) : StateM SymbolStore Symbol := fun t =>
  match t.find? name with
  | some s => (s, t)
  | none => (⟨t.size⟩, ⟨t.names ++ [name], (name, ⟨t.size⟩) :: t.symbols⟩)

/-- The store of the reserved names. -/
def initial : SymbolStore :=
  (Symbol.reserved.forM fun name => discard (intern name)).run ∅ |>.2

variable {t : SymbolStore} {name : String} {s : Symbol}

theorem intern_of_find?_eq_some (h : t.find? name = some s) : intern name t = (s, t) := by
  simp only [intern, h]

theorem intern_of_find?_eq_none (h : t.find? name = none) :
    intern name t = (⟨t.size⟩, ⟨t.names ++ [name], (name, ⟨t.size⟩) :: t.symbols⟩) := by
  simp only [intern, h]

/-- Whether it was entered or known, a name is found afterwards as the symbol that was answered, and all other
names are found as before. -/
theorem find?_intern (t : SymbolStore) (name other : String) :
    (intern name t).2.find? other = if other = name then some (intern name t).1 else t.find? other := by
  cases h : t.find? name with
  | some s =>
    rw [intern_of_find?_eq_some h]
    by_cases hother : other = name
    · rw [if_pos hother, hother, h]
    · rw [if_neg hother]
  | none =>
    rw [intern_of_find?_eq_none h]
    by_cases hother : other = name
    · rw [if_pos hother, find?, hother, List.lookup_cons_self]
    · rw [if_neg hother, find?, List.lookup_cons, beq_false_of_ne hother]
      rfl

/-- The list of the names only grows at its end. -/
theorem names_isPrefix_intern (t : SymbolStore) (name : String) : t.names <+: (intern name t).2.names := by
  cases h : t.find? name with
  | some s => exact ⟨[], by rw [List.append_nil, intern_of_find?_eq_some h]⟩
  | none => exact ⟨[name], by rw [intern_of_find?_eq_none h]⟩

theorem mem_names_intern {other : String} (h : other ∈ (intern name t).2.names) :
    other ∈ t.names ∨ other = name := by
  cases hname : t.find? name with
  | some s =>
    rw [intern_of_find?_eq_some hname] at h
    exact Or.inl h
  | none =>
    rw [intern_of_find?_eq_none hname, List.mem_append, List.mem_singleton] at h
    exact h

/-! ## Agreement of the two parts -/

/-- Whether looking up names and looking up symbols are inverse to each other. -/
def Inverse (t : SymbolStore) : Prop :=
  ∀ name s, t.find? name = some s ↔ t.name? s = some name

theorem inverse_empty : Inverse ∅ := by
  intro name s
  constructor
  · intro h
    cases h
  · intro h
    cases h

theorem exists_name?_iff : (∃ name, t.name? s = some name) ↔ s.ordinal < t.size := by
  simp only [name?, size, List.getElem?_eq_some_iff, exists_comm, exists_eq', exists_prop, and_true]

theorem name?_intern_of_find?_eq_none (h : t.find? name = none) (s : Symbol) :
    (intern name t).2.name? s = if s.ordinal = t.size then some name else t.name? s := by
  rw [intern_of_find?_eq_none h, name?, getElem?_concat]
  rfl

/-- Interning keeps the two parts inverse: what is entered in one is entered in the other. -/
theorem Inverse.intern (h : t.Inverse) (name : String) : (intern name t).2.Inverse := by
  cases hname : t.find? name with
  | some s =>
    rw [intern_of_find?_eq_some hname]
    exact h
  | none =>
    intro other s
    have hsymbol : (SymbolStore.intern name t).1 = ⟨t.size⟩ := by rw [intern_of_find?_eq_none hname]
    rw [find?_intern, hsymbol, name?_intern_of_find?_eq_none hname]
    by_cases hother : other = name
    · -- the new symbol has the new name, and no other symbol has it
      have hold : t.name? s ≠ some name := fun hs => by
        rw [(h name s).2 hs] at hname
        cases hname
      rw [if_pos hother, hother, Option.some.injEq]
      by_cases hs : s.ordinal = t.size
      · rw [if_pos hs]
        exact iff_of_true (hs ▸ rfl) rfl
      · rw [if_neg hs]
        exact iff_of_false (fun he => hs (he ▸ rfl)) hold
    · rw [if_neg hother]
      by_cases hs : s.ordinal = t.size
      · rw [if_pos hs, Option.some.injEq]
        refine iff_of_false (fun hfind => ?_) (Ne.symm hother)
        have hlt : s.ordinal < t.size := exists_name?_iff.1 ⟨other, (h other s).1 hfind⟩
        omega
      · rw [if_neg hs]
        exact h other s

/-- Where the two parts are inverse the list alone tells the symbol of a name. -/
theorem Inverse.find?_eq_idxOf? (h : t.Inverse) (name : String) :
    t.find? name = (t.names.idxOf? name).map Symbol.mk := by
  cases hn : t.names.idxOf? name with
  | some n =>
    obtain ⟨hlt, hname, _⟩ := List.idxOf?_eq_some_iff.1 hn
    exact (h name ⟨n⟩).2 (List.getElem?_eq_some_iff.2 ⟨hlt, hname⟩)
  | none =>
    refine Option.eq_none_iff_forall_ne_some.2 fun s hs => List.idxOf?_eq_none_iff.1 hn ?_
    exact List.mem_of_getElem? ((h name s).1 hs)

theorem inverse_initial : initial.Inverse :=
  (inverse_empty.intern "not").intern "if"

theorem names_initial : initial.names = Symbol.reserved := by
  decide

end SymbolStore

end ForwardChaining
