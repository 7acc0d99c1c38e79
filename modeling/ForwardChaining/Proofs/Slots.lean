import ForwardChaining.Proofs.Matching
import ForwardChaining.Proofs.Pairs
import Mathlib.Data.Set.Card

/-!
# Slots — bindings laid out as tables

A binding can be kept in a table with one slot for each ordinal, which is written in place and gets longer
as variables with greater ordinals are given values. Writing never leaves an empty slot at the end, so the
table is determined by the values in it: whatever the order in which they were written, it is the row of the
binding (`Binding.Built.eq_row`). Two tables are therefore the same list exactly if they give every variable
the same value (`Binding.canonical`).
-/

namespace ForwardChaining

/-! ## 1. Tables -/

/-- A table of values by ordinal, with empty slots between them. -/
abbrev Slots := List (Option Atom)

namespace Slots

def get? (s : Slots) (v : Variable) : Option Atom :=
  s[v.ordinal]?.join

/-- Writes a value into the slot of a variable, behind as many empty slots as are missing before it. -/
def write (s : Slots) (v : Variable) (a : Atom) : Slots :=
  (s ++ List.replicate (v.ordinal + 1 - s.length) none).set v.ordinal (some a)

def writeAll (s : Slots) (pairs : List (Variable × Atom)) : Slots :=
  pairs.foldl (fun s p => s.write p.1 p.2) s

/-- Writes what matching a term against an atom binds. -/
def writeMatch (s : Slots) (t : Term) (a : Atom) : Slots :=
  match t with
  | .const _ => s
  | .var v => if (s.get? v).isSome then s else s.write v a

def toList (s : Slots) : List (Variable × Atom) :=
  s.zipIdx.filterMap fun p => p.1.map fun a => (⟨p.2⟩, a)

def size (s : Slots) : Nat :=
  s.countP Option.isSome

/-- Whether the last slot is in use. -/
def Reduced (s : Slots) : Prop :=
  s.getLast? ≠ some none

variable {s t : Slots}

theorem length_le_of_reduced (hs : s.Reduced) (h : ∀ v, s.get? v = t.get? v) : s.length ≤ t.length := by
  by_contra hlt
  -- the last slot of the longer table holds a value that the shorter one does not have
  have hlast : s.getLast? = s[s.length - 1]? := List.getLast?_eq_getElem?
  obtain ⟨o, ho⟩ : ∃ o, s[s.length - 1]? = some o :=
    ⟨_, List.getElem?_eq_getElem (by omega)⟩
  have hnone : t.get? ⟨s.length - 1⟩ = none := by
    rw [get?, List.getElem?_eq_none (by show t.length ≤ s.length - 1; omega)]
    rfl
  rw [← h, get?, ho] at hnone
  exact hs (by rw [hlast, ho]; exact congrArg some hnone)

/-- A table without an empty slot at the end is determined by its values. -/
theorem ext_get? (hs : s.Reduced) (ht : t.Reduced) (h : ∀ v, s.get? v = t.get? v) : s = t := by
  have hlength : s.length = t.length :=
    Nat.le_antisymm (length_le_of_reduced hs h) (length_le_of_reduced ht fun v => (h v).symm)
  refine List.ext_getElem hlength fun k hk hk' => ?_
  have hv := h ⟨k⟩
  rw [get?, get?, List.getElem?_eq_getElem hk, List.getElem?_eq_getElem hk'] at hv
  exact hv

theorem length_write (s : Slots) (v : Variable) (a : Atom) :
    (s.write v a).length = max s.length (v.ordinal + 1) := by
  rw [write, List.length_set, List.length_append, List.length_replicate]
  omega

theorem getElem?_write (s : Slots) (v : Variable) (a : Atom) (k : Nat) :
    (s.write v a)[k]? = if k = v.ordinal then some (some a)
      else if k < s.length then s[k]? else if k < v.ordinal then some none else none := by
  rw [write, List.getElem?_set, List.length_append, List.length_replicate]
  by_cases hk : k = v.ordinal
  · rw [if_pos hk.symm, if_pos (by omega), if_pos hk]
  · rw [if_neg (Ne.symm hk), if_neg hk, List.getElem?_append, List.getElem?_replicate]
    by_cases hlt : k < s.length
    · rw [if_pos hlt, if_pos hlt]
    · rw [if_neg hlt, if_neg hlt]
      exact if_congr (by omega) rfl rfl

theorem get?_write (s : Slots) (v : Variable) (a : Atom) (w : Variable) :
    (s.write v a).get? w = if w = v then some a else s.get? w := by
  simp only [get?, getElem?_write, ← Variable.ordinal_inj]
  by_cases hlt : w.ordinal < s.length
  · grind
  · have hnone : s[w.ordinal]? = none := List.getElem?_eq_none (by omega)
    grind

theorem reduced_write (hs : s.Reduced) (v : Variable) (a : Atom) : (s.write v a).Reduced := by
  rw [Reduced, List.getLast?_eq_getElem?, length_write, getElem?_write]
  rw [Reduced, List.getLast?_eq_getElem?] at hs
  -- the last slot is the one that is written, or it is the last one of before
  by_cases hlt : s.length ≤ v.ordinal + 1
  · rw [if_pos (by omega)]
    exact fun h => by cases h
  · rw [Nat.max_eq_left (by omega), if_neg (by omega), if_pos (by omega)]
    exact hs

theorem toList_ascending (s : Slots) :
    s.toList.Pairwise fun p q => p.1.ordinal < q.1.ordinal := by
  rw [toList, List.pairwise_filterMap]
  have hindex : s.zipIdx.Pairwise fun p q => p.2 < q.2 := by
    rw [← List.pairwise_map (f := Prod.snd) (R := (· < ·)), List.zipIdx_map_snd]
    exact List.pairwise_lt_range'
  refine hindex.imp fun hlt p hp q hq => ?_
  obtain ⟨x, _, rfl⟩ := Option.map_eq_some_iff.1 hp
  obtain ⟨y, _, rfl⟩ := Option.map_eq_some_iff.1 hq
  exact hlt

theorem length_toList (s : Slots) : s.toList.length = s.size := by
  have hused : (fun p : Option Atom × Nat => (p.1.map fun a => ((⟨p.2⟩ : Variable), a)).isSome)
      = Option.isSome ∘ Prod.fst := funext fun p => Option.isSome_map
  rw [toList, List.length_filterMap_eq_countP, hused, ← List.countP_map, List.zipIdx_map_fst, size]

end Slots

/-! ## 2. The row of a binding -/

namespace Binding

variable {b c : Binding} {s : Slots}

theorem le_of_getLast?_keys {k m : Nat} (hk : k ∈ b.slots.keys) (hm : b.slots.keys.getLast? = some m) :
    k ≤ m := by
  have hascending : b.slots.keys.Pairwise (· < ·) := List.pairwise_map.2 b.slots.ascending
  obtain ⟨front, hfront⟩ := List.getLast?_eq_some_iff.1 hm
  rw [hfront] at hascending hk
  rcases List.mem_append.1 hk with hk | hk
  · exact Nat.le_of_lt ((List.pairwise_append.1 hascending).2.2 k hk m (List.mem_singleton_self m))
  · exact Nat.le_of_eq (List.mem_singleton.1 hk)

theorem length_row (b : Binding) : b.row.length = b.slots.keys.getLast?.elim 0 (· + 1) := by
  rw [row, List.length_map, List.length_range]

theorem lt_length_row {v : Variable} {a : Atom} (h : b.get? v = some a) : v.ordinal < b.row.length := by
  have hk : v.ordinal ∈ b.slots.keys := (OrdinalMap.mem_keys_iff _ _).2 (Option.isSome_of_eq_some h)
  rw [length_row]
  cases hm : b.slots.keys.getLast? with
  | none =>
    rw [List.getLast?_eq_none_iff.1 hm] at hk
    cases hk
  | some m => exact Nat.lt_succ_of_le (le_of_getLast?_keys hk hm)

theorem get?_row (b : Binding) (v : Variable) : Slots.get? b.row v = b.get? v := by
  by_cases hlt : v.ordinal < b.row.length
  · rw [Slots.get?, List.getElem?_eq_getElem hlt]
    simp only [row, List.getElem_map, List.getElem_range]
    rfl
  · rw [Slots.get?, List.getElem?_eq_none (Nat.le_of_not_lt hlt)]
    exact (Option.eq_none_iff_forall_ne_some.2 fun a ha => hlt (lt_length_row ha)).symm

theorem reduced_row (b : Binding) : Slots.Reduced b.row := by
  rw [Slots.Reduced, row]
  cases hm : b.slots.keys.getLast? with
  | none => exact fun h => by cases h
  | some m =>
    -- the greatest key is one that has a value
    have hmem : m ∈ b.slots.keys := List.mem_of_getLast? hm
    have hsome : (b.slots.get? m).isSome := (OrdinalMap.mem_keys_iff _ _).1 hmem
    rw [Option.elim_some, List.range_succ, List.map_append, List.map_singleton, List.getLast?_concat]
    intro h
    rw [Option.some.inj h] at hsome
    cases hsome

theorem eq_row_of_reduced (hs : s.Reduced) (h : ∀ v, s.get? v = b.get? v) : s = b.row :=
  Slots.ext_get? hs (reduced_row b) fun v => by rw [h, get?_row]

theorem row_extend {v : Variable} {a : Atom} (h : b.extend v a = .ok c) : Slots.write b.row v a = c.row :=
  eq_row_of_reduced (Slots.reduced_write (reduced_row b) v a) fun w => by
    rw [Slots.get?_write, get?_row, get?_extend h]

theorem row_extendAll {pairs : List (Variable × Atom)} (h : b.extendAll pairs = .ok c) :
    Slots.writeAll b.row pairs = c.row := by
  induction pairs generalizing b with
  | nil =>
    cases h
    rfl
  | cons p pairs ih =>
    obtain ⟨d, hd, hc⟩ := extendAll_cons_eq_ok_iff.1 h
    rw [Slots.writeAll, List.foldl_cons, row_extend hd]
    exact ih hc

theorem row_matchAtom {t : Term} {a : Atom} (h : t.matchAtom a b = .ok (some c)) :
    Slots.writeMatch b.row t a = c.row := by
  rcases Term.matchAtom_cases h with ⟨rfl, rfl⟩ | ⟨v, rfl, ⟨hv, rfl⟩ | ⟨hv, hext⟩⟩
  · rfl
  · rw [Slots.writeMatch, get?_row, hv]
    rfl
  · rw [Slots.writeMatch, get?_row, hv, ← row_extend hext]
    rfl

theorem row_matchFact {t : Tuple} {f : Fact} (h : t.matchFact f b = .ok (some c)) :
    (t.zip f).foldl (fun s p => Slots.writeMatch s p.1 p.2) b.row = c.row := by
  induction t generalizing f b with
  | nil =>
    cases f with
    | nil =>
      cases h
      rfl
    | cons a f => cases h
  | cons t ts ih =>
    cases f with
    | nil => cases h
    | cons a f =>
      obtain ⟨o, ho⟩ := Term.exists_matchAtom_eq_ok t a b
      rw [Tuple.matchFact_cons ho] at h
      cases o with
      | none => cases h
      | some d =>
        rw [List.zip_cons_cons, List.foldl_cons, row_matchAtom ho]
        exact ih h

/-! ## 3. What is read off a row -/

theorem toList_ascending (b : Binding) :
    b.toList.Pairwise fun p q => p.1.ordinal < q.1.ordinal :=
  List.pairwise_map.2 b.slots.ascending

theorem mem_toList_row (b : Binding) (v : Variable) (a : Atom) :
    (v, a) ∈ Slots.toList b.row ↔ (v, a) ∈ b.toList := by
  rw [mem_toList_iff, ← get?_row, Slots.toList, List.mem_filterMap, Slots.get?, Option.join_eq_some_iff]
  constructor
  · rintro ⟨⟨o, k⟩, hk, ho⟩
    obtain ⟨x, rfl, hx⟩ := Option.map_eq_some_iff.1 ho
    cases hx
    exact List.mem_zipIdx_iff_getElem?.1 hk
  · intro h
    exact ⟨(some a, v.ordinal), List.mem_zipIdx_iff_getElem?.2 h, rfl⟩

theorem toList_row (b : Binding) : Slots.toList b.row = b.toList := by
  have hirrefl : Std.Irrefl fun p q : Variable × Atom => p.1.ordinal < q.1.ordinal :=
    ⟨fun _ => Nat.lt_irrefl _⟩
  have hantisymm : Std.Antisymm fun p q : Variable × Atom => p.1.ordinal < q.1.ordinal :=
    ⟨fun _ _ hlt hgt => absurd hgt (Nat.lt_asymm hlt)⟩
  exact (Slots.toList_ascending b.row).eq_of_mem_iff (toList_ascending b) fun p => mem_toList_row b p.1 p.2

theorem size_row (b : Binding) : Slots.size b.row = b.size := by
  rw [← Slots.length_toList, toList_row, toList, List.length_map]
  rfl

theorem encard_isBound (b : Binding) : {v | b.isBound v}.encard = b.size := by
  have hnodup : (b.toList.map Prod.fst).Nodup :=
    List.pairwise_map.2 ((toList_ascending b).imp fun hlt => mt Variable.ordinal_inj.2 (Nat.ne_of_lt hlt))
  have hset : {v | b.isBound v} = ((b.toList.map Prod.fst).toFinset : Set Variable) := by
    ext v
    show b.isBound v ↔ _
    rw [isBound_iff, Finset.mem_coe, List.mem_toFinset, List.mem_map]
    simp only [← mem_toList_iff, Prod.exists, exists_and_right, exists_eq_right]
  rw [hset, Set.encard_coe_eq_coe_finsetCard, List.toFinset_card_of_nodup hnodup, List.length_map,
    toList, List.length_map]
  rfl

/-! ## 4. Bindings that are built -/

/-- The bindings that can be built, each with the table that is written on the way. -/
inductive Built : Binding → Slots → Prop where
  | empty : Built ∅ []
  | extend {b c : Binding} {s : Slots} {v : Variable} {a : Atom} (h : Built b s)
    (hc : b.extend v a = .ok c) : Built c (s.write v a)
  | ofList {c : Binding} {pairs : List (Variable × Atom)} (hc : ofList pairs = .ok c) :
    Built c (Slots.writeAll [] pairs)
  | matchAtom {b c : Binding} {s : Slots} {t : Term} {a : Atom} (h : Built b s)
    (hc : t.matchAtom a b = .ok (some c)) : Built c (s.writeMatch t a)
  | matchFact {b c : Binding} {s : Slots} {t : Tuple} {f : Fact} (h : Built b s)
    (hc : t.matchFact f b = .ok (some c)) :
    Built c ((t.zip f).foldl (fun s p => Slots.writeMatch s p.1 p.2) s)

/-- Whatever the way in which a binding is built, its table is the same. -/
theorem Built.eq_row {s : Slots} (h : b.Built s) : s = b.row := by
  induction h with
  | empty => rfl
  | extend _ hc ih =>
    rw [ih]
    exact row_extend hc
  | ofList hc => exact row_extendAll (b := ∅) hc
  | matchAtom _ hc ih =>
    rw [ih]
    exact row_matchAtom hc
  | matchFact _ hc ih =>
    rw [ih]
    exact row_matchFact hc

/-- Bindings are maps, and so are their tables: two that are built in whatever ways are equal exactly if they
give every variable the same value. To be part of another is a partial order; the variables with values are
listed in ascending order, and the list gives the binding back; pairs give the same binding in any order and
however often they are repeated; the size is the number of variables with values; and an extension changes
one variable. No extension overwrites a value, but a table in which values are overwritten has no empty slot at
its end either, and is determined by its values too. -/
theorem canonical {b c : Binding} {s t : Slots} (hb : b.Built s) (hc : c.Built t) :
    ((s = t ↔ ∀ v, b.get? v = c.get? v) ∧ (b = c ↔ ∀ v, b.get? v = c.get? v) ∧
      ∀ v, s.get? v = b.get? v) ∧
    (b ⊆ b ∧ (∀ d, b ⊆ c → c ⊆ d → b ⊆ d) ∧ (b ⊆ c ∧ c ⊆ b ↔ b = c)) ∧
    (s.toList = b.toList ∧ (b.toList.Pairwise fun p q => p.1.ordinal < q.1.ordinal) ∧
      (∀ v a, (v, a) ∈ b.toList ↔ b.get? v = some a) ∧ ofList b.toList = .ok b) ∧
    (∀ pairs pairs', Consistent pairs → (∀ p, p ∈ pairs ↔ p ∈ pairs') →
      Slots.writeAll [] pairs = Slots.writeAll [] pairs' ∧
      ∃ d, ofList pairs = .ok d ∧ ofList pairs' = .ok d ∧
        ∀ v a, d.get? v = some a ↔ (v, a) ∈ pairs) ∧
    (s.size = b.size ∧ {v | b.isBound v}.encard = b.size) ∧
    ∀ v a, ((∃ d, b.extend v a = .ok d) ↔ ∀ old, b.get? v = some old → old = a) ∧
      (∀ d, b.extend v a = .ok d → ∀ w, d.get? w = if w = v then some a else b.get? w) ∧
      s.Reduced ∧ ∀ u : Slots, u.Reduced → (u.write v a).Reduced ∧
        (∀ w, (u.write v a).get? w = if w = v then some a else u.get? w) ∧
        ∀ u', u'.Reduced → (u.write v a = u' ↔ ∀ w, (u.write v a).get? w = u'.get? w) := by
  have heq : b = c ↔ ∀ v, b.get? v = c.get? v := ⟨fun h v => by rw [h], ext_get?⟩
  have htable : s = t ↔ ∀ v, b.get? v = c.get? v := by
    refine ⟨fun h v => ?_, fun h => ?_⟩
    · rw [← get?_row, ← get?_row, ← hb.eq_row, ← hc.eq_row, h]
    · rw [hb.eq_row, hc.eq_row, ext_get? h]
  have hantisymm : b ⊆ c ∧ c ⊆ b ↔ b = c := by
    refine ⟨fun h => eq_of_subset h.1 fun v hv => isBound_of_subset h.2 hv, ?_⟩
    rintro rfl
    exact ⟨subset_refl b, subset_refl b⟩
  refine ⟨⟨htable, heq, fun v => ?_⟩, ⟨subset_refl b, fun d => subset_trans, hantisymm⟩,
    ⟨?_, toList_ascending b, mem_toList_iff b, ofList_toList b⟩, fun pairs pairs' hpairs hmem => ?_,
    ⟨?_, encard_isBound b⟩, fun v a => ⟨exists_extend_eq_ok_iff, fun d hd => get?_extend hd,
      hb.eq_row ▸ reduced_row b, fun u hu => ?_⟩⟩
  · rw [hb.eq_row, get?_row]
  · rw [hb.eq_row, toList_row]
  · obtain ⟨d, hd⟩ := exists_ofList_eq_ok_iff.2 hpairs
    have hd' : ofList pairs' = .ok d := ofList_congr hd hmem
    refine ⟨?_, d, hd, hd', fun v a => get?_ofList_eq_some_iff hd⟩
    rw [(Built.ofList hd).eq_row, (Built.ofList hd').eq_row]
  · rw [hb.eq_row, size_row]
  · have hwrite : (u.write v a).Reduced := Slots.reduced_write hu v a
    refine ⟨hwrite, u.get?_write v a, fun u' hu' => ⟨fun h w => by rw [h], fun h => ?_⟩⟩
    exact Slots.ext_get? hwrite hu' h

/-- `?3` is given a value and then `(?0 ?3)` is matched, or `?0` comes first, and once more at the end. The
tables are the same, with two empty slots in the middle. -/
theorem canonical_middle :
    let x : Atom := .integer 5
    let y : Atom := .integer 7
    let s : Slots := [(.var ⟨0⟩, x), (.var ⟨3⟩, y)].foldl (fun s p => Slots.writeMatch s p.1 p.2)
      (Slots.write [] ⟨3⟩ y)
    let t : Slots := Slots.writeAll [] [(⟨0⟩, x), (⟨3⟩, y), (⟨0⟩, x)]
    ∃ b : Binding, b.Built s ∧ b.Built t ∧ s = t ∧ t = [some x, none, none, some y] := by
  intro x y s t
  let b₃ : Binding := ⟨⟨[(3, y)], by decide⟩⟩
  let b : Binding := ⟨⟨[(0, x), (3, y)], by decide⟩⟩
  have hb₃ : b₃.Built (Slots.write [] ⟨3⟩ y) := Built.empty.extend (by decide)
  have hs : b.Built s :=
    hb₃.matchFact (t := [.var ⟨0⟩, .var ⟨3⟩]) (f := [x, y]) (by decide)
  have ht : b.Built t := Built.ofList (by decide)
  exact ⟨b, hs, ht, (canonical hs ht).1.1.2 fun _ => rfl, by decide⟩

end Binding

end ForwardChaining
