import ForwardChaining.Proofs.Correspondence
import ForwardChaining.Proofs.Solving

/-!
# Relevance — solving looks only at the variables that occur

Two bindings that agree on the variables of some conditions are solved alike: with the same error, or
with the same number of solutions in the same order, which again agree on these variables
(`solve_congr`). So it does not matter to a negation what else is bound where it stands. For a guard
alone, larger bindings keep what it comes to too, unless that is the want of a value (`Expr.eval_stable`).
-/

namespace ForwardChaining

variable {vs : List Variable} {b c : Binding}

/-! ## 1. Bindings that agree -/

/-- Whether two bindings give the same values to some variables, or none. -/
def Binding.AgreeOn (vs : List Variable) (b c : Binding) : Prop :=
  ∀ v ∈ vs, b.get? v = c.get? v

theorem Binding.AgreeOn.mono {ws : List Variable} (h : AgreeOn vs b c) (hsub : ws ⊆ vs) :
    AgreeOn ws b c :=
  fun v hv => h v (hsub hv)

theorem Binding.AgreeOn.extend (h : AgreeOn vs b c) {b' c' : Binding} {v : Variable} {a : Atom}
    (hb : b.extend v a = .ok b') (hc : c.extend v a = .ok c') : AgreeOn vs b' c' := by
  intro w hw
  rw [get?_extend hb, get?_extend hc, h w hw]

/-- A part of a binding agrees with the whole on the variables that it binds too. -/
theorem Binding.agreeOn_of_subset (h : b ⊆ c) (hdom : ∀ v ∈ vs, c.isBound v → b.isBound v) :
    AgreeOn vs b c := by
  intro v hv
  cases hc : c.get? v with
  | none =>
    cases hb : b.get? v with
    | none => rfl
    | some a => rw [get?_of_subset h hb] at hc; cases hc
  | some a =>
    have ⟨a', ha'⟩ := (isBound_iff b v).1 (hdom v hv ((isBound_iff c v).2 ⟨a, hc⟩))
    rw [ha', ← hc, get?_of_subset h ha']

/-! ## 2. Terms and expressions -/

theorem Term.ground_congr (h : b.AgreeOn vs c) {t : Term} (ht : t.var?.toList ⊆ vs) :
    t.ground b = t.ground c := by
  cases t with
  | const a => rfl
  | var v =>
    have hv : b.get? v = c.get? v := h v (ht (List.mem_singleton_self v))
    simp only [ground, hv]

theorem Expr.eval_congr {e : Expr Term} (h : b.AgreeOn e.vars c) : e.eval b = e.eval c := by
  induction e with
  | leaf t =>
    have ht : t.ground b = t.ground c := Term.ground_congr h (by cases t <;> exact List.Subset.refl _)
    simp only [eval, ht]
  | not e ih =>
    have he : e.eval b = e.eval c := ih h
    simp only [eval, he]
  | binary op l r ihl ihr =>
    rw [vars_binary] at h
    have hl : l.eval b = l.eval c := ihl (h.mono (List.subset_append_left _ _))
    have hr : r.eval b = r.eval c := ihr (h.mono (List.subset_append_right _ _))
    cases op <;> simp only [eval, hl, hr]

theorem Expr.holds_congr {e : Expr Term} (h : b.AgreeOn e.vars c) : e.holds b = e.holds c := by
  rw [holds, holds, eval_congr h]

/-- A result that is not for want of a value stays under every larger binding. For want of a value an
expression fails at one of its variables, and not if all of these have values. Then the result depends
on these values alone. -/
theorem Expr.eval_stable (b : Binding) (e : Expr Term) :
    (∀ c, b ⊆ c → (∀ v, e.eval b ≠ .error (.unbound v)) → e.eval c = e.eval b) ∧
      (∀ v, e.eval b = .error (.unbound v) → v ∈ e.vars ∧ ¬ b.isBound v) ∧
      ((∀ v ∈ e.vars, b.isBound v) →
        (∀ v, e.eval b ≠ .error (.unbound v)) ∧
          ∀ c, (∀ v ∈ e.vars, c.get? v = b.get? v) → e.eval c = e.eval b) := by
  have hunbound (v : Variable) (h : e.eval b = .error (.unbound v)) : v ∈ e.vars ∧ ¬ b.isBound v :=
    (eval_agrees (Binding.subset_refl b) e).unbound h
  refine ⟨fun c hbc => (eval_agrees hbc e).eq_of_ne_unbound, hunbound, fun hbound =>
    ⟨fun v hv => ?_, fun c hc => eval_congr hc⟩⟩
  have ⟨hmem, hfree⟩ := hunbound v hv
  exact hfree (hbound v hmem)

/-- `(or (< ?0 3) (= ?1 3))` where `?0` is one needs no value of `?1`. Where `?0` is three it needs one, and
with it the result depends on no other variable. -/
theorem Expr.eval_stable_either :
    let v (i : Nat) : Expr Term := .leaf (.var ⟨i⟩)
    let three : Expr Term := .leaf (.const (.integer 3))
    let e : Expr Term :=
      .binary (.logic .or) (.binary (.order .lt) (v 0) three) (.binary (.equality .eq) (v 1) three)
    let one : Binding := ⟨⟨[(0, .integer 1)], by decide⟩⟩
    let more : Binding := ⟨⟨[(0, .integer 1), (1, .symbol ⟨2⟩), (4, .integer 4)], by decide⟩⟩
    let wanting : Binding := ⟨⟨[(0, .integer 3)], by decide⟩⟩
    let full : Binding := ⟨⟨[(0, .integer 3), (1, .integer 3)], by decide⟩⟩
    let other : Binding := ⟨⟨[(0, .integer 3), (1, .integer 3), (2, .symbol ⟨2⟩)], by decide⟩⟩
    (one ⊆ more ∧ e.eval one = .ok (.bool true) ∧ e.eval more = .ok (.bool true)) ∧
      (e.eval wanting = .error (.unbound ⟨1⟩) ∧ ⟨1⟩ ∈ e.vars ∧ ¬ wanting.isBound ⟨1⟩) ∧
      (∀ v, e.eval full ≠ .error (.unbound v)) ∧ e.eval other = e.eval full := by
  intro v three e one more wanting full other
  have hsub : one ⊆ more := by decide
  have hone : e.eval one = .ok (.bool true) := by decide +kernel
  have hmore : e.eval more = e.eval one := (eval_stable one e).1 more hsub fun v hv => by
    rw [hone] at hv
    cases hv
  have hwanting : e.eval wanting = .error (.unbound ⟨1⟩) := by decide +kernel
  have hbound : ∀ v ∈ e.vars, full.isBound v := by decide
  have ⟨hne, hsame⟩ := (eval_stable full e).2.2 hbound
  exact ⟨⟨hsub, hone, hmore.trans hone⟩, ⟨hwanting, (eval_stable wanting e).2.1 _ hwanting⟩, hne,
    hsame other (by decide)⟩

/-! ## 3. Matching -/

theorem Term.matchAtom_congr (h : b.AgreeOn vs c) {t : Term} (ht : t.var?.toList ⊆ vs) (a : Atom) :
    Alike (Option.Rel (Binding.AgreeOn vs)) (t.matchAtom a b) (t.matchAtom a c) := by
  cases t with
  | const x => exact Alike.ok (rel_ite (Option.Rel.some h) Option.Rel.none)
  | var v =>
    have hv : b.get? v = c.get? v := h v (ht (List.mem_singleton_self v))
    cases hc : c.get? v with
    | some old =>
      rw [hc] at hv
      simp only [matchAtom, hv, hc]
      exact Alike.ok (rel_ite (Option.Rel.some h) Option.Rel.none)
    | none =>
      -- the variable is new to both, and both give it the atom
      rw [hc] at hv
      obtain ⟨b', hb', _⟩ := Binding.exists_extend a hv
      obtain ⟨c', hc', _⟩ := Binding.exists_extend a hc
      simp only [matchAtom, hv, hc, hb', hc', Except.map]
      exact Alike.ok (Option.Rel.some (h.extend hb' hc'))

theorem Tuple.matchFact_congr (h : b.AgreeOn vs c) {t : Tuple} (ht : t.vars ⊆ vs) (f : Fact) :
    Alike (Option.Rel (Binding.AgreeOn vs)) (t.matchFact f b) (t.matchFact f c) := by
  induction t generalizing f b c with
  | nil =>
    cases f with
    | nil => exact Alike.ok (Option.Rel.some h)
    | cons a f => exact Alike.ok Option.Rel.none
  | cons t ts ih =>
    cases f with
    | nil => exact Alike.ok Option.Rel.none
    | cons a f =>
      rw [vars_cons, List.append_subset] at ht
      refine (Term.matchAtom_congr h ht.1 a).bind fun o o' ho => ?_
      cases ho with
      | none => exact Alike.ok Option.Rel.none
      | some hbc => exact ih hbc ht.2 f

theorem FactBase.query_congr (F : FactBase) (h : b.AgreeOn vs c) {t : Tuple} (ht : t.vars ⊆ vs) :
    Alike (List.Forall₂ (Binding.AgreeOn vs)) (F.query t b) (F.query t c) := by
  refine Alike.filterMapM (List.forall₂_same.2 fun _ _ => rfl) fun f g hfg => ?_
  rw [hfg]
  exact Tuple.matchFact_congr h ht g

/-! ## 4. Solving -/

theorem Condition.vars_negation (body : List Condition) :
    (negation body).vars = body.flatMap Condition.vars := by
  rw [negation, vars, Argument.varsOfAll_eq_flatMap, List.flatMap_map]
  rfl

theorem Condition.vars_guard (e : Expr Term) : (guard e).vars = e.vars :=
  List.append_nil e.vars

/-- Whether a condition is resolved alike under bindings that agree on some variables. -/
def Condition.Respects (F : FactBase) (vs : List Variable) (k : Condition) : Prop :=
  ∀ b c, Binding.AgreeOn vs b c →
    Alike (List.Forall₂ (Binding.AgreeOn vs)) (k.search .builtin F b) (k.search .builtin F c)

theorem solve_congr_of_respects {F : FactBase} {cs : List Condition}
    (hcs : ∀ k ∈ cs, k.Respects F vs) (h : b.AgreeOn vs c) :
    Alike (List.Forall₂ (Binding.AgreeOn vs)) (solve .builtin F cs b) (solve .builtin F cs c) := by
  have hsearches : List.Forall₂ (Search.Corresponds (Binding.AgreeOn vs))
      (cs.map (Condition.search .builtin F)) (cs.map (Condition.search .builtin F)) := by
    rw [List.forall₂_map_left_iff, List.forall₂_map_right_iff]
    exact List.forall₂_same.2 hcs
  exact Search.Corresponds.all hsearches b c h

theorem Condition.respects (F : FactBase) {k : Condition} (hk : k.vars ⊆ vs) : k.Respects F vs := by
  induction k using Condition.induction with
  | tuple t ht =>
    intro b c h
    rw [search_tuple ht, search_tuple ht]
    exact (F.query_congr h hk).mapError _
  | negation body ih =>
    intro b c h
    rw [vars_negation] at hk
    have hbody : ∀ k ∈ body, k.Respects F vs := fun k hmem => ih k hmem fun v hv =>
      hk (List.mem_flatMap.2 ⟨k, hmem, hv⟩)
    rw [search_negation, search_negation]
    refine (solve_congr_of_respects hbody h).bind fun inner inner' hinner => ?_
    -- the bodies have equally many solutions
    cases hinner with
    | nil => exact Alike.ok (List.Forall₂.cons h List.Forall₂.nil)
    | cons _ _ => exact Alike.ok List.Forall₂.nil
  | guard e =>
    intro b c h
    rw [vars_guard] at hk
    rw [search_guard, search_guard, Expr.holds_congr (h.mono hk)]
    refine (Alike.refl _).bind fun p q hpq => ?_
    rw [hpq]
    exact Alike.ok (rel_ite (List.Forall₂.cons h List.Forall₂.nil) List.Forall₂.nil)
  | rejected k hr =>
    intro b c _
    have ⟨reason, hr⟩ := hr
    rw [hr, hr]
    exact Alike.error _

/-- Bindings that agree on the variables of some conditions are solved alike: with the same error, or
with solutions that agree one by one. -/
theorem solve_congr (F : FactBase) {cs : List Condition} (hcs : cs.flatMap Condition.vars ⊆ vs)
    (h : b.AgreeOn vs c) :
    Alike (List.Forall₂ (Binding.AgreeOn vs)) (solve .builtin F cs b) (solve .builtin F cs c) :=
  solve_congr_of_respects (fun k hk => Condition.respects F fun _ hv =>
    hcs (List.mem_flatMap.2 ⟨k, hk, hv⟩)) h

end ForwardChaining
