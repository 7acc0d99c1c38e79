import ForwardChaining.Inference.Search
import ForwardChaining.Proofs.Failure

/-!
# Correspondence — computations that fail alike or give related results

`Alike R x y` compares two computations: both fail with one error, or both succeed and their results
are related by `R`. Sequencing keeps it, and so does going through lists of related members. Two
searches are compared in this way condition by condition, with the order of their solutions
(`Search.Corresponds`).
-/

namespace ForwardChaining

variable {ε ε' α β γ δ : Type}

/-- Both computations fail with the same error, or both succeed with related results. -/
inductive Alike (R : α → β → Prop) : Except ε α → Except ε β → Prop where
  | error (e : ε) : Alike R (.error e) (.error e)
  | ok {a : α} {b : β} (h : R a b) : Alike R (.ok a) (.ok b)

theorem rel_ite {R : α → β → Prop} {p : Prop} [Decidable p] {a a' : α} {b b' : β} (h : R a b)
    (h' : R a' b') : R (if p then a else a') (if p then b else b') := by
  by_cases hp : p
  · rw [if_pos hp, if_pos hp]
    exact h
  · rw [if_neg hp, if_neg hp]
    exact h'

namespace Alike

variable {R : α → β → Prop} {S : γ → δ → Prop}

theorem refl (x : Except ε α) : Alike Eq x x := by
  cases x with
  | error e => exact error e
  | ok a => exact ok rfl

theorem exists_ok {x : Except ε α} {y : Except ε β} (h : Alike R x y) {a : α} (hx : x = .ok a) :
    ∃ b, y = .ok b ∧ R a b := by
  cases h with
  | error e => cases hx
  | ok hab =>
    cases hx
    exact ⟨_, rfl, hab⟩

theorem bind {x : Except ε α} {y : Except ε β} {f : α → Except ε γ} {g : β → Except ε δ}
    (h : Alike R x y) (hfg : ∀ a b, R a b → Alike S (f a) (g b)) : Alike S (x >>= f) (y >>= g) := by
  cases h with
  | error e => exact error e
  | ok hab => exact hfg _ _ hab

theorem map {x : Except ε α} {y : Except ε β} {f : α → γ} {g : β → δ} (h : Alike R x y)
    (hfg : ∀ a b, R a b → S (f a) (g b)) : Alike S (f <$> x) (g <$> y) := by
  cases h with
  | error e => exact error e
  | ok hab => exact ok (hfg _ _ hab)

theorem mapError {x : Except ε α} {y : Except ε β} (h : Alike R x y) (f : ε → ε') :
    Alike R (x.mapError f) (y.mapError f) := by
  cases h with
  | error e => exact error (f e)
  | ok hab => exact ok hab

/-- Members that are related one by one give results that are. -/
theorem mapM {l : List α} {l' : List β} {f : α → Except ε γ} {g : β → Except ε δ}
    (h : List.Forall₂ R l l') (hfg : ∀ a b, R a b → Alike S (f a) (g b)) :
    Alike (List.Forall₂ S) (l.mapM f) (l'.mapM g) := by
  induction h with
  | nil => exact ok List.Forall₂.nil
  | cons hab _ ih =>
    rw [List.mapM_cons, List.mapM_cons]
    refine (hfg _ _ hab).bind fun c d hcd => ih.bind fun cs ds hcds => ?_
    exact ok (List.Forall₂.cons hcd hcds)

theorem filterMapM {l : List α} {l' : List β} {f : α → Except ε (Option γ)}
    {g : β → Except ε (Option δ)} (h : List.Forall₂ R l l')
    (hfg : ∀ a b, R a b → Alike (Option.Rel S) (f a) (g b)) :
    Alike (List.Forall₂ S) (l.filterMapM f) (l'.filterMapM g) := by
  rw [filterMapM_eq_map_mapM, filterMapM_eq_map_mapM]
  -- what is dropped on one side is dropped on the other
  exact (mapM h hfg).map fun os os' hos => List.rel_filterMap (fun _ _ ho => ho) hos

end Alike

namespace Search

/-- Whether two searches from related bindings fail alike or find related solutions. -/
def Corresponds (R : Binding → Binding → Prop) (s s' : Search) : Prop :=
  ∀ x y, R x y → Alike (List.Forall₂ R) (s x) (s' y)

/-- Searches that correspond one by one do so together. -/
theorem Corresponds.all {R : Binding → Binding → Prop} {ss ss' : List Search}
    (h : List.Forall₂ (Corresponds R) ss ss') : Corresponds R (all ss) (all ss') := by
  induction h with
  | nil => exact fun x y hxy => Alike.ok (List.Forall₂.cons hxy List.Forall₂.nil)
  | cons hs _ ih =>
    intro x y hxy
    -- the solutions of the first search are related one by one, and so are theirs
    refine (hs x y hxy).bind fun mids mids' hmids => ?_
    refine (Alike.mapM hmids fun m m' hm => ih m m' hm).bind fun groups groups' hgroups => ?_
    exact Alike.ok (List.rel_flatten hgroups)

end Search

end ForwardChaining
