import Mathlib.Data.List.Forall2

/-!
# Failure — computations that may fail, and lists of them

Solving, firing and stepping are computations in `Except`. The lemmas here say when a sequence of
such computations succeeds, what its results are, and where its error comes from, so that later
proofs take a computation apart without unfolding it.
-/

namespace ForwardChaining

variable {ε ε' α β : Type}

/-! ## 1. One after the other -/

theorem bind_eq_ok_iff {x : Except ε α} {f : α → Except ε β} {b : β} :
    (x >>= f) = .ok b ↔ ∃ a, x = .ok a ∧ f a = .ok b := by
  cases x with
  | error e => simp only [bind, Except.bind, reduceCtorEq, false_and, exists_false]
  | ok a => simp only [bind, Except.bind, Except.ok.injEq, exists_eq_left']

theorem bind_eq_error_iff {x : Except ε α} {f : α → Except ε β} {e : ε} :
    (x >>= f) = .error e ↔ x = .error e ∨ ∃ a, x = .ok a ∧ f a = .error e := by
  cases x with
  | error e' =>
    simp only [bind, Except.bind, Except.error.injEq, reduceCtorEq, false_and, exists_false,
      or_false]
  | ok a => simp only [bind, Except.bind, reduceCtorEq, Except.ok.injEq, exists_eq_left', false_or]

theorem map_eq_ok_iff {x : Except ε α} {f : α → β} {b : β} :
    x.map f = .ok b ↔ ∃ a, x = .ok a ∧ f a = b := by
  cases x with
  | error e => simp only [Except.map, reduceCtorEq, false_and, exists_false]
  | ok a => simp only [Except.map, Except.ok.injEq, exists_eq_left']

theorem map_eq_error_iff {x : Except ε α} {f : α → β} {e : ε} : x.map f = .error e ↔ x = .error e := by
  cases x with
  | error e' => simp only [Except.map, Except.error.injEq]
  | ok a => simp only [Except.map, reduceCtorEq]

theorem mapError_eq_ok_iff {x : Except ε α} {g : ε → ε'} {a : α} :
    x.mapError g = .ok a ↔ x = .ok a := by
  cases x with
  | error e => simp only [Except.mapError, reduceCtorEq]
  | ok a' => simp only [Except.mapError, Except.ok.injEq]

theorem mapError_eq_error_iff {x : Except ε α} {g : ε → ε'} {e' : ε'} :
    x.mapError g = .error e' ↔ ∃ e, x = .error e ∧ g e = e' := by
  cases x with
  | error e => simp only [Except.mapError, Except.error.injEq, exists_eq_left']
  | ok a => simp only [Except.mapError, reduceCtorEq, false_and, exists_false]

/-! ## 2. One for each member of a list -/

theorem mapM_eq_ok_iff {f : α → Except ε β} {l : List α} {ys : List β} :
    l.mapM f = .ok ys ↔ List.Forall₂ (fun x y => f x = .ok y) l ys := by
  induction l generalizing ys with
  | nil =>
    rw [List.mapM_nil, List.forall₂_nil_left_iff]
    exact ⟨fun h => (Except.ok.inj h).symm, fun h => congrArg Except.ok h.symm⟩
  | cons x l ih =>
    rw [List.mapM_cons, List.forall₂_cons_left_iff, bind_eq_ok_iff]
    refine ⟨fun ⟨y, hy, h⟩ => ?_, fun ⟨y, zs, hy, hzs, h⟩ => ?_⟩
    · have ⟨zs, hzs, h⟩ := bind_eq_ok_iff.1 h
      exact ⟨y, zs, hy, ih.1 hzs, (Except.ok.inj h).symm⟩
    · exact ⟨y, hy, bind_eq_ok_iff.2 ⟨zs, ih.2 hzs, congrArg Except.ok h.symm⟩⟩

theorem exists_mapM_eq_ok_iff {f : α → Except ε β} {l : List α} :
    (∃ ys, l.mapM f = .ok ys) ↔ ∀ x ∈ l, ∃ y, f x = .ok y := by
  induction l with
  | nil => exact ⟨fun _ x hx => absurd hx List.not_mem_nil, fun _ => ⟨[], rfl⟩⟩
  | cons x l ih =>
    rw [List.forall_mem_cons, ← ih]
    simp only [mapM_eq_ok_iff, List.forall₂_cons_left_iff]
    refine ⟨fun ⟨ys, y, zs, hy, hzs, _⟩ => ⟨⟨y, hy⟩, ⟨zs, hzs⟩⟩, fun ⟨⟨y, hy⟩, ⟨zs, hzs⟩⟩ => ?_⟩
    exact ⟨y :: zs, y, zs, hy, hzs, rfl⟩

theorem exists_mapM_eq_error_iff {f : α → Except ε β} {l : List α} :
    (∃ e, l.mapM f = .error e) ↔ ∃ x ∈ l, ∃ e, f x = .error e := by
  have hfails {γ : Type} (x : Except ε γ) : (∃ e, x = .error e) ↔ ¬ ∃ y, x = .ok y := by
    cases x with
    | error e => exact iff_of_true ⟨e, rfl⟩ (fun ⟨_, h⟩ => by cases h)
    | ok y => exact iff_of_false (fun ⟨_, h⟩ => by cases h) (fun h => h ⟨y, rfl⟩)
  rw [hfails, exists_mapM_eq_ok_iff]
  simp only [hfails, not_forall, exists_prop]

theorem mem_of_mapM_eq_ok {f : α → Except ε β} {l : List α} {ys : List β}
    (h : l.mapM f = .ok ys) (y : β) : y ∈ ys ↔ ∃ x ∈ l, f x = .ok y := by
  induction mapM_eq_ok_iff.1 h with
  | nil => simp only [List.not_mem_nil, false_and, exists_false]
  | @cons x z l zs hz hzs ih =>
    rw [List.mem_cons, ih (mapM_eq_ok_iff.2 hzs), List.exists_mem_cons_iff, hz, Except.ok.injEq,
      eq_comm]

theorem mapM_eq_error_iff {f : α → Except ε β} {l : List α} {e : ε} :
    l.mapM f = .error e ↔
      ∃ front x rest, l = front ++ x :: rest ∧ (∀ y ∈ front, ∃ z, f y = .ok z) ∧ f x = .error e := by
  -- the error is that of the first member that fails
  induction l with
  | nil =>
    refine ⟨fun h => (nomatch h), fun ⟨front, x, rest, h, _⟩ => ?_⟩
    exact absurd h.symm (List.append_ne_nil_of_right_ne_nil _ (List.cons_ne_nil _ _))
  | cons x l ih =>
    rw [List.mapM_cons, bind_eq_error_iff]
    refine ⟨fun h => ?_, fun ⟨front, x', rest, hl, hfront, hx'⟩ => ?_⟩
    · rcases h with hx | ⟨y, hy, h⟩
      · exact ⟨[], x, l, rfl, fun y hy => absurd hy List.not_mem_nil, hx⟩
      · rcases bind_eq_error_iff.1 h with h | ⟨zs, _, h⟩
        · have ⟨front, x', rest, hl, hfront, hx'⟩ := ih.1 h
          exact ⟨x :: front, x', rest, congrArg (x :: ·) hl,
            List.forall_mem_cons.2 ⟨⟨y, hy⟩, hfront⟩, hx'⟩
        · cases h
    · cases front with
      | nil =>
        obtain ⟨rfl, rfl⟩ := List.cons.inj hl
        exact Or.inl hx'
      | cons y front =>
        obtain ⟨rfl, rfl⟩ := List.cons.inj hl
        -- the front starts with a member that succeeds, so the failure lies behind it
        have ⟨⟨z, hz⟩, hfront⟩ := List.forall_mem_cons.1 hfront
        refine Or.inr ⟨z, hz, bind_eq_error_iff.2 (Or.inl ?_)⟩
        exact ih.2 ⟨front, x', rest, rfl, hfront, hx'⟩

theorem mapM_eq_error_iff_getElem? {f : α → Except ε β} {l : List α} {e : ε} :
    l.mapM f = .error e ↔ ∃ i : Nat, (∃ x, l[i]? = some x ∧ f x = .error e) ∧
      ∀ j < i, ∀ y, l[j]? = some y → ∃ z, f y = .ok z := by
  rw [mapM_eq_error_iff]
  constructor
  · rintro ⟨front, x, rest, rfl, hfront, hx⟩
    refine ⟨front.length, ⟨x, ?_, hx⟩, fun j hj y hy => ?_⟩
    · rw [List.getElem?_append_right (Nat.le_refl _), Nat.sub_self]
      rfl
    · rw [List.getElem?_append_left hj] at hy
      exact hfront y (List.mem_of_getElem? hy)
  · rintro ⟨i, ⟨x, hi, hx⟩, hbefore⟩
    obtain ⟨hlt, rfl⟩ := List.getElem?_eq_some_iff.1 hi
    refine ⟨l.take i, l[i], l.drop (i + 1), ?_, fun y hy => ?_, hx⟩
    · rw [← List.drop_eq_getElem_cons hlt, List.take_append_drop]
    · obtain ⟨j, hj, rfl⟩ := List.mem_take_iff_getElem.1 hy
      exact hbefore j (by omega) _ (List.getElem?_eq_getElem _)

theorem exists_mem_of_mapM_eq_error {f : α → Except ε β} {l : List α} {e : ε}
    (h : l.mapM f = .error e) : ∃ x ∈ l, f x = .error e := by
  obtain ⟨front, x, rest, rfl, _, hx⟩ := mapM_eq_error_iff.1 h
  exact ⟨x, List.mem_append_right _ List.mem_cons_self, hx⟩

theorem mapM_eq_map_mapM {γ : Type} {f : α → Except ε β} {f' : α → Except ε γ} {g : γ → β}
    {l : List α} (h : ∀ x ∈ l, f x = (f' x).map g) : l.mapM f = (l.mapM f').map (List.map g) := by
  induction l with
  | nil => rfl
  | cons x l ih =>
    have ⟨hx, hl⟩ := List.forall_mem_cons.1 h
    rw [List.mapM_cons, List.mapM_cons, hx, ih hl]
    cases f' x with
    | error e => rfl
    | ok y =>
      cases l.mapM f' with
      | error e => rfl
      | ok ys => rfl

/-- Where all members of a list have results, so have those of a part of it. -/
theorem exists_mapM_of_sublist {f : α → Except ε β} {l l' : List α} {ys : List β}
    (hl : l'.Sublist l) (h : l.mapM f = .ok ys) : ∃ ys', l'.mapM f = .ok ys' ∧ ys'.Sublist ys := by
  induction hl generalizing ys with
  | slnil => exact ⟨[], rfl, List.nil_sublist ys⟩
  | cons x _ ih =>
    rw [List.mapM_cons] at h
    have ⟨y, _, h⟩ := bind_eq_ok_iff.1 h
    have ⟨zs, hzs, h⟩ := bind_eq_ok_iff.1 h
    cases h
    have ⟨ys', hys', hsub⟩ := ih hzs
    exact ⟨ys', hys', hsub.cons y⟩
  | cons_cons x _ ih =>
    rw [List.mapM_cons] at h
    have ⟨y, hy, h⟩ := bind_eq_ok_iff.1 h
    have ⟨zs, hzs, h⟩ := bind_eq_ok_iff.1 h
    cases h
    have ⟨ys', hys', hsub⟩ := ih hzs
    refine ⟨y :: ys', ?_, hsub.cons_cons y⟩
    rw [List.mapM_cons, hy, hys']
    rfl

/-- Where each member that has a result has a related one as well, the results are related. -/
theorem exists_mapM_forall₂ {γ : Type} {R : γ → β → Prop} {f : α → Except ε β} {g : α → Except ε γ}
    {l : List α} {ys : List β} (h : l.mapM f = .ok ys)
    (hfg : ∀ x ∈ l, ∀ y, f x = .ok y → ∃ z, g x = .ok z ∧ R z y) :
    ∃ zs, l.mapM g = .ok zs ∧ List.Forall₂ R zs ys := by
  induction mapM_eq_ok_iff.1 h with
  | nil => exact ⟨[], rfl, List.Forall₂.nil⟩
  | @cons x y l ys hy hys ih =>
    have ⟨hx, hl⟩ := List.forall_mem_cons.1 hfg
    have ⟨z, hz, hzy⟩ := hx y hy
    have ⟨zs, hzs, hrel⟩ := ih (mapM_eq_ok_iff.2 hys) hl
    refine ⟨z :: zs, ?_, List.Forall₂.cons hzy hrel⟩
    rw [List.mapM_cons, hz, hzs]
    rfl

/-! ## 3. Filtering -/

theorem filterMapM_eq_map_mapM {f : α → Except ε (Option β)} {l : List α} :
    l.filterMapM f = (List.filterMap id) <$> l.mapM f := by
  -- no result is dropped before the last computation is done
  induction l with
  | nil => rfl
  | cons x l ih =>
    rw [List.filterMapM_cons, List.mapM_cons]
    cases f x with
    | error e => rfl
    | ok o =>
      show _ = List.filterMap id <$> ((do let zs ← l.mapM f; pure (o :: zs)) : Except ε _)
      cases o with
      | none =>
        show l.filterMapM f = _
        rw [ih]
        cases l.mapM f with
        | error e => rfl
        | ok zs => rfl
      | some y =>
        show (do let zs ← l.filterMapM f; pure (y :: zs)) = _
        rw [ih]
        cases l.mapM f with
        | error e => rfl
        | ok zs => rfl

theorem filterMapM_eq_ok_iff {f : α → Except ε (Option β)} {l : List α} {ys : List β} :
    l.filterMapM f = .ok ys ↔ ∃ os, l.mapM f = .ok os ∧ ys = os.filterMap id := by
  rw [filterMapM_eq_map_mapM]
  cases l.mapM f with
  | error e => simp only [Functor.map, Except.map, reduceCtorEq, false_and, exists_false]
  | ok os =>
    simp only [Functor.map, Except.map, Except.ok.injEq, exists_eq_left']
    exact eq_comm

theorem exists_filterMapM_eq_ok_iff {f : α → Except ε (Option β)} {l : List α} :
    (∃ ys, l.filterMapM f = .ok ys) ↔ ∀ x ∈ l, ∃ o, f x = .ok o := by
  rw [← exists_mapM_eq_ok_iff]
  refine ⟨fun ⟨ys, h⟩ => ?_, fun ⟨os, h⟩ => ⟨_, filterMapM_eq_ok_iff.2 ⟨os, h, rfl⟩⟩⟩
  have ⟨os, h, _⟩ := filterMapM_eq_ok_iff.1 h
  exact ⟨os, h⟩

theorem filterMapM_eq_ok_filterMap {f : α → Except ε (Option β)} {g : α → Option β} {l : List α}
    (h : ∀ x ∈ l, f x = .ok (g x)) : l.filterMapM f = .ok (l.filterMap g) := by
  have hok : l.mapM f = .ok (l.map g) := by
    rw [mapM_eq_ok_iff, List.forall₂_map_right_iff]
    exact List.forall₂_same.2 h
  rw [filterMapM_eq_ok_iff]
  exact ⟨l.map g, hok, by rw [List.filterMap_map]; rfl⟩

theorem mem_of_filterMapM_eq_ok {f : α → Except ε (Option β)} {l : List α} {ys : List β}
    (h : l.filterMapM f = .ok ys) (y : β) : y ∈ ys ↔ ∃ x ∈ l, f x = .ok (some y) := by
  obtain ⟨os, hos, rfl⟩ := filterMapM_eq_ok_iff.1 h
  rw [List.mem_filterMap, ← mem_of_mapM_eq_ok hos]
  simp only [id_eq, exists_eq_right]

theorem exists_mem_of_filterMapM_eq_error {f : α → Except ε (Option β)} {l : List α} {e : ε}
    (h : l.filterMapM f = .error e) : ∃ x ∈ l, f x = .error e := by
  rw [filterMapM_eq_map_mapM] at h
  refine exists_mem_of_mapM_eq_error ?_
  cases hos : l.mapM f with
  | error e' =>
    rw [hos] at h
    exact congrArg Except.error (Except.error.inj h)
  | ok os =>
    rw [hos] at h
    cases h

/-! ## 4. Searching -/

theorem anyM_eq_false_iff {p : α → Except ε Bool} {l : List α} :
    l.anyM p = .ok false ↔ ∀ x ∈ l, p x = .ok false := by
  induction l with
  | nil => exact ⟨fun _ x hx => absurd hx List.not_mem_nil, fun _ => rfl⟩
  | cons x l ih =>
    rw [List.forall_mem_cons, ← ih, List.anyM, bind_eq_ok_iff]
    refine ⟨fun ⟨q, hq, h⟩ => ?_, fun ⟨hx, h⟩ => ⟨false, hx, h⟩⟩
    cases q with
    | true => cases h
    | false => exact ⟨hq, h⟩

theorem exists_mem_of_anyM_eq_true {p : α → Except ε Bool} {l : List α}
    (h : l.anyM p = .ok true) : ∃ x ∈ l, p x = .ok true := by
  induction l with
  | nil => cases h
  | cons x l ih =>
    have ⟨q, hq, h⟩ := bind_eq_ok_iff.1 h
    -- a list that has answered stops there
    cases q with
    | true => exact ⟨x, List.mem_cons_self, hq⟩
    | false =>
      have ⟨y, hy, hp⟩ := ih h
      exact ⟨y, List.mem_cons_of_mem _ hy, hp⟩

theorem exists_mem_of_anyM_eq_error {p : α → Except ε Bool} {l : List α} {e : ε}
    (h : l.anyM p = .error e) : ∃ x ∈ l, p x = .error e := by
  induction l with
  | nil => cases h
  | cons x l ih =>
    rcases bind_eq_error_iff.1 h with h | ⟨q, _, h⟩
    · exact ⟨x, List.mem_cons_self, h⟩
    · cases q with
      | true => cases h
      | false =>
        have ⟨y, hy, hp⟩ := ih h
        exact ⟨y, List.mem_cons_of_mem _ hy, hp⟩

end ForwardChaining
