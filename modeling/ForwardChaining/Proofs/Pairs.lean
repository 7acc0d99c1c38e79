import ForwardChaining.Proofs.Failure
import ForwardChaining.Term.Binding
import Mathlib.Data.List.Induction

/-!
# Pairs — bindings given value by value

A list of variables with values is a binding exactly if it gives no variable two values
(`Binding.exists_ofList_eq_ok_iff`). The order of the pairs and how often they are repeated do not
matter then (`Binding.ofList_congr`); otherwise the first pair that contradicts one before it is refused
(`Binding.ofList_eq_error_iff`).
-/

namespace ForwardChaining

/-- Whether no variable is given two values. -/
def Consistent (pairs : List (Variable × Atom)) : Prop :=
  ∀ v a a', (v, a) ∈ pairs → (v, a') ∈ pairs → a = a'

namespace Binding

variable {b c : Binding} {v : Variable} {a : Atom} {pairs : List (Variable × Atom)}

/-! ## 1. One pair -/

theorem exists_extend_eq_ok_iff :
    (∃ c, b.extend v a = .ok c) ↔ ∀ old, b.get? v = some old → old = a := by
  constructor
  · rintro ⟨c, hc⟩ old hold
    by_contra hne
    have herror := (extend_eq_error_iff b v a ⟨v, old, a⟩).2 ⟨old, hold, hne, rfl⟩
    cases hc.symm.trans herror
  · intro h
    cases hext : b.extend v a with
    | ok c => exact ⟨c, rfl⟩
    | error e =>
      obtain ⟨old, hold, hne, _⟩ := (extend_eq_error_iff b v a e).1 hext
      exact absurd (h old hold) hne

theorem get?_extend_eq_some_iff (h : b.extend v a = .ok c) {w : Variable} {x : Atom} :
    c.get? w = some x ↔ b.get? w = some x ∨ (w, x) = (v, a) := by
  rw [get?_extend h, Prod.mk.injEq]
  by_cases hw : w = v
  · rw [if_pos hw, Option.some.injEq, hw]
    -- what the variable had before is what it is given
    have hold : b.get? v = some x → x = a := exists_extend_eq_ok_iff.1 ⟨c, h⟩ x
    constructor
    · exact fun he => Or.inr ⟨rfl, he.symm⟩
    · exact fun he => he.elim (fun hb => (hold hb).symm) fun he => he.2.symm
  · rw [if_neg hw]
    exact (or_iff_left fun he => hw he.1).symm

/-! ## 2. Many pairs -/

/-- Gives values to variables one pair after the other. -/
def extendAll (b : Binding) (pairs : List (Variable × Atom)) : Except Rebinding Binding :=
  pairs.foldlM (fun b p => b.extend p.1 p.2) b

theorem extendAll_cons_eq_ok_iff {p : Variable × Atom} :
    b.extendAll (p :: pairs) = .ok c ↔ ∃ d, b.extend p.1 p.2 = .ok d ∧ d.extendAll pairs = .ok c := by
  rw [extendAll, List.foldlM_cons, bind_eq_ok_iff]
  rfl

theorem get?_extendAll_eq_some_iff (h : b.extendAll pairs = .ok c) {w : Variable} {x : Atom} :
    c.get? w = some x ↔ b.get? w = some x ∨ (w, x) ∈ pairs := by
  induction pairs generalizing b with
  | nil =>
    cases h
    simp only [List.not_mem_nil, or_false]
  | cons p pairs ih =>
    obtain ⟨d, hd, hc⟩ := extendAll_cons_eq_ok_iff.1 h
    rw [ih hc, get?_extend_eq_some_iff hd, List.mem_cons, or_assoc]

/-- Pairs are accepted if neither they nor the values at hand give a variable two values. -/
theorem exists_extendAll_eq_ok (h : Consistent (b.toList ++ pairs)) : ∃ c, b.extendAll pairs = .ok c := by
  induction pairs generalizing b with
  | nil => exact ⟨b, rfl⟩
  | cons p pairs ih =>
    have hgiven : ∀ {q}, q ∈ p :: pairs → q ∈ b.toList ++ p :: pairs := List.mem_append_right _
    have hhead : ∀ old, b.get? p.1 = some old → old = p.2 := fun old hold =>
      h p.1 old p.2 (List.mem_append_left _ ((mem_toList_iff b p.1 old).2 hold)) (hgiven List.mem_cons_self)
    obtain ⟨d, hd⟩ := exists_extend_eq_ok_iff.2 hhead
    -- the pair that is taken in moves from the list to the binding
    have hmoved : ∀ q ∈ d.toList ++ pairs, q ∈ b.toList ++ p :: pairs := by
      rintro ⟨w, x⟩ hq
      rcases List.mem_append.1 hq with hq | hq
      · rcases (get?_extend_eq_some_iff hd).1 ((mem_toList_iff d w x).1 hq) with hb | he
        · exact List.mem_append_left _ ((mem_toList_iff b w x).2 hb)
        · exact hgiven (he ▸ List.mem_cons_self)
      · exact hgiven (List.mem_cons_of_mem _ hq)
    obtain ⟨c, hc⟩ := ih fun w x x' hx hx' => h w x x' (hmoved _ hx) (hmoved _ hx')
    exact ⟨c, extendAll_cons_eq_ok_iff.2 ⟨d, hd, hc⟩⟩

/-! ## 3. Bindings from pairs -/

theorem get?_ofList_eq_some_iff (h : ofList pairs = .ok c) :
    c.get? v = some a ↔ (v, a) ∈ pairs := by
  rw [get?_extendAll_eq_some_iff (b := ∅) h, get?_empty]
  exact or_iff_right fun hnone => by cases hnone

theorem consistent_of_ofList_eq_ok (h : ofList pairs = .ok c) : Consistent pairs := by
  intro v a a' ha ha'
  have hget := (get?_ofList_eq_some_iff h).2 ha
  exact Option.some.inj (hget.symm.trans ((get?_ofList_eq_some_iff h).2 ha'))

theorem exists_ofList_eq_ok_iff : (∃ c, ofList pairs = .ok c) ↔ Consistent pairs :=
  ⟨fun ⟨_, h⟩ => consistent_of_ofList_eq_ok h, fun h => exists_extendAll_eq_ok (b := ∅) h⟩

theorem exists_ofList_eq_error_iff :
    (∃ e, ofList pairs = .error e) ↔ ∃ v a a', (v, a) ∈ pairs ∧ (v, a') ∈ pairs ∧ a ≠ a' := by
  have hfails : (∃ e, ofList pairs = .error e) ↔ ¬ ∃ c, ofList pairs = .ok c := by
    cases ofList pairs with
    | ok c => exact iff_of_false (fun ⟨_, h⟩ => by cases h) (fun h => h ⟨c, rfl⟩)
    | error e => exact iff_of_true ⟨e, rfl⟩ (fun ⟨_, h⟩ => by cases h)
  rw [hfails, exists_ofList_eq_ok_iff, Consistent]
  simp only [not_forall, exists_prop]

/-- The same pairs in another order, or repeated, give the same binding. -/
theorem ofList_congr {pairs' : List (Variable × Atom)} (h : ofList pairs = .ok c)
    (hmem : ∀ p, p ∈ pairs ↔ p ∈ pairs') : ofList pairs' = .ok c := by
  have hconsistent : Consistent pairs' := fun v a a' ha ha' =>
    consistent_of_ofList_eq_ok h v a a' ((hmem _).2 ha) ((hmem _).2 ha')
  obtain ⟨d, hd⟩ := exists_ofList_eq_ok_iff.2 hconsistent
  have hdc : d = c := ext_get? fun v => Option.ext fun a => by
    rw [get?_ofList_eq_some_iff hd, get?_ofList_eq_some_iff h, hmem]
  rw [hd, hdc]

theorem ofList_toList (b : Binding) : ofList b.toList = .ok b := by
  have hconsistent : Consistent b.toList := fun v a a' ha ha' =>
    Option.some.inj (((mem_toList_iff b v a).1 ha).symm.trans ((mem_toList_iff b v a').1 ha'))
  obtain ⟨d, hd⟩ := exists_ofList_eq_ok_iff.2 hconsistent
  have hdb : d = b := ext_get? fun v => Option.ext fun a => by
    rw [get?_ofList_eq_some_iff hd, mem_toList_iff]
  rw [hd, hdb]

theorem ofList_append_cons (front rest : List (Variable × Atom)) (p : Variable × Atom) :
    ofList (front ++ p :: rest)
      = ofList front >>= fun c => c.extend p.1 p.2 >>= fun d => d.extendAll rest := by
  rw [ofList, List.foldlM_append]
  rfl

/-- The first pair that gives a variable another value than a pair before it is refused. -/
theorem ofList_eq_error_iff {e : Rebinding} :
    ofList pairs = .error e ↔ ∃ front rest, pairs = front ++ (e.var, e.given) :: rest ∧
      Consistent front ∧ (e.var, e.bound) ∈ front ∧ e.bound ≠ e.given := by
  constructor
  · intro h
    -- by induction from the end: either the last pair is refused, or one before it
    induction pairs using List.reverseRecOn with
    | nil => cases h
    | append_singleton front p ih =>
      rw [ofList_append_cons] at h
      rcases bind_eq_error_iff.1 h with h | ⟨c, hc, h⟩
      · obtain ⟨front', rest, rfl, hrest⟩ := ih h
        exact ⟨front', rest ++ [p], by rw [List.append_assoc]; rfl, hrest⟩
      · rcases bind_eq_error_iff.1 h with h | ⟨d, _, h⟩
        · obtain ⟨old, hold, hne, rfl⟩ := (extend_eq_error_iff c p.1 p.2 e).1 h
          exact ⟨front, [], rfl, consistent_of_ofList_eq_ok hc, (get?_ofList_eq_some_iff hc).1 hold, hne⟩
        · cases h
  · rintro ⟨front, rest, rfl, hfront, hmem, hne⟩
    obtain ⟨c, hc⟩ := exists_ofList_eq_ok_iff.2 hfront
    have hextend : c.extend e.var e.given = .error e :=
      (extend_eq_error_iff c e.var e.given e).2 ⟨e.bound, (get?_ofList_eq_some_iff hc).2 hmem, hne, rfl⟩
    rw [ofList_append_cons, hc]
    exact bind_eq_error_iff.2 (Or.inr ⟨c, rfl, bind_eq_error_iff.2 (Or.inl hextend)⟩)

example : ofList [(⟨0⟩, .integer 5), (⟨1⟩, .integer 7), (⟨0⟩, .integer 7)]
    = .error ⟨⟨0⟩, .integer 5, .integer 7⟩ := by
  decide

end Binding

end ForwardChaining
