import ForwardChaining.Proofs.Solving

/-!
# Satisfaction — what it means that conditions hold

`Satisfies` says when a binding satisfies a conjunction, without any order of search: all tuples are
known facts, all guards are true, and no negation has a body that can be satisfied from the values
of the variables before it. Where solving succeeds, it finds exactly the bindings that satisfy the
conditions (`mem_solve_iff_satisfies`).
-/

namespace ForwardChaining

/-! ## 1. Restricted bindings -/

/-- The entries whose keys have a property. -/
def OrdinalMap.restrict {α : Type} (m : OrdinalMap α) (p : Nat → Bool) : OrdinalMap α where
  entries := m.entries.filter fun q => p q.1
  ascending := m.ascending.filter _

theorem OrdinalMap.get?_restrict {α : Type} (m : OrdinalMap α) (p : Nat → Bool) (k : Nat) :
    (m.restrict p).get? k = if p k then m.get? k else none := by
  have hmem : ∀ x, (m.restrict p).get? k = some x ↔ p k = true ∧ m.get? k = some x := fun x => by
    rw [← mem_entries_iff, ← mem_entries_iff, restrict, List.mem_filter, and_comm]
  by_cases hp : p k = true
  · rw [if_pos hp]
    refine Option.ext fun x => ?_
    rw [hmem, and_iff_right hp]
  · rw [if_neg hp]
    refine Option.eq_none_iff_forall_ne_some.2 fun x hx => ?_
    exact hp ((hmem x).1 hx).1

namespace Binding

/-- The values of the variables with a property. -/
def restrict (b : Binding) (p : Variable → Bool) : Binding where
  slots := b.slots.restrict fun k => p ⟨k⟩

theorem get?_restrict (b : Binding) (p : Variable → Bool) (v : Variable) :
    (b.restrict p).get? v = if p v then b.get? v else none :=
  b.slots.get?_restrict _ v.ordinal

theorem restrict_subset (b : Binding) (p : Variable → Bool) : b.restrict p ⊆ b := by
  refine (subset_iff _ b).2 fun v a hv => ?_
  rw [get?_restrict] at hv
  by_cases hp : p v = true
  · rw [if_pos hp] at hv
    exact hv
  · rw [if_neg hp] at hv
    cases hv

theorem subset_restrict {b c : Binding} (h : b ⊆ c) {p : Variable → Bool}
    (hp : ∀ v, b.isBound v → p v = true) : b ⊆ c.restrict p := by
  refine (subset_iff b _).2 fun v a hv => ?_
  rw [get?_restrict, if_pos (hp v ((isBound_iff b v).2 ⟨a, hv⟩))]
  exact get?_of_subset h hv

theorem isBound_restrict (b : Binding) (p : Variable → Bool) (v : Variable) :
    (b.restrict p).isBound v ↔ p v = true ∧ b.isBound v := by
  rw [isBound, get?_restrict]
  by_cases hp : p v = true
  · rw [if_pos hp, and_iff_right hp, isBound]
  · rw [if_neg hp]
    exact ⟨fun h => absurd h Bool.false_ne_true, fun h => absurd h.1 hp⟩

end Binding

/-! ## 2. Satisfaction -/

/-- The variables of the tuples of a conjunction. What stands inside negations does not count. -/
def Condition.tupleVars (cs : List Condition) : List Variable :=
  cs.flatMap fun c => match c with
    | .tuple t => t.vars
    | .form _ _ => []

/-- What `c` says about the variables of `b` and of the tuples among the conditions in front. -/
def Binding.upTo (c b : Binding) (front : List Condition) : Binding :=
  c.restrict fun v => b.isBound v || v ∈ Condition.tupleVars front

/-- `c` satisfies a conjunction from `b`: it extends `b` by the variables of the tuples, all tuples
are known facts and all guards are true. A negation asks that nothing satisfies its body from the
values of the variables before it. -/
def Satisfies (F : FactBase) (cs : List Condition) (b c : Binding) : Prop :=
  b.Extends (Condition.tupleVars cs) c ∧
  (∀ t, .tuple t ∈ cs → ∃ f ∈ F, t.ground c = .ok f) ∧
  (∀ e, .guard e ∈ cs → e.holds c = .ok true) ∧
  ∀ front body rest, (h : cs = front ++ .negation body :: rest) →
    ¬ ∃ d, Satisfies F body (c.upTo b front) d
termination_by sizeOf cs
decreasing_by
  -- the body of a member is smaller than the list
  have hmem : Condition.negation body ∈ cs := by
    rw [h]
    exact List.mem_append_right _ List.mem_cons_self
  exact Nat.lt_trans (Condition.sizeOf_lt_sizeOf_negation body) (List.sizeOf_lt_of_mem hmem)

/-- Conditions made of tuples that are looked up in the facts, guards, and negations of such
conditions. -/
inductive Condition.WellFormed : Condition → Prop where
  | tuple (t : Tuple) (h : t.IsPlain) : WellFormed (.tuple t)
  | guard (e : Expr Term) : WellFormed (.guard e)
  | negation (body : List Condition) (h : ∀ c ∈ body, WellFormed c) : WellFormed (.negation body)

/-! ## 3. Conjunctions taken apart -/

namespace Condition

theorem guard_ne_tuple (e : Expr Term) (t : Tuple) : guard e ≠ tuple t :=
  fun h => (nomatch h)

theorem negation_ne_tuple (body : List Condition) (t : Tuple) : negation body ≠ tuple t :=
  fun h => (nomatch h)

theorem negation_ne_guard (body : List Condition) (e : Expr Term) : negation body ≠ guard e :=
  fun h => absurd (form.inj h).1 (by decide)

theorem guard_inj {e e' : Expr Term} (h : guard e = guard e') : e = e' :=
  Argument.expr.inj (List.cons.inj (form.inj h).2).1

theorem negation_inj {body body' : List Condition} (h : negation body = negation body') :
    body = body' :=
  List.map_injective_iff.2 (fun _ _ => Argument.condition.inj) (form.inj h).2

theorem forall_negation_cons_iff {k : Condition} {cs : List Condition}
    {P : List Condition → List Condition → Prop} :
    (∀ front body rest, k :: cs = front ++ negation body :: rest → P front body) ↔
      (∀ body, k = negation body → P [] body) ∧
        ∀ front body rest, cs = front ++ negation body :: rest → P (k :: front) body := by
  refine ⟨fun h => ⟨fun body hk => h [] body cs (congrArg (· :: cs) hk),
    fun front body rest hcs => h (k :: front) body rest (congrArg (k :: ·) hcs)⟩,
    fun ⟨hk, h⟩ front body rest hcs => ?_⟩
  cases front with
  | nil => exact hk body (List.cons.inj hcs).1
  | cons k' front =>
    obtain ⟨rfl, htail⟩ := List.cons.inj hcs
    exact h front body rest htail

end Condition

section Cons

variable {F : FactBase} {cs : List Condition} {b c m : Binding}

theorem satisfies_nil_iff : Satisfies F [] b c ↔ c = b := by
  rw [Satisfies]
  refine ⟨fun ⟨hext, _⟩ => ?_, fun h => ?_⟩
  · refine (Binding.eq_of_subset hext.1 fun v hv => ?_).symm
    exact ((hext.2 v).1 hv).resolve_right List.not_mem_nil
  · rw [h]
    refine ⟨Binding.Extends.refl b, fun t ht => (nomatch ht), fun e he => (nomatch he), ?_⟩
    exact fun front body rest h => absurd h.symm (List.append_ne_nil_of_right_ne_nil _ (by simp))

theorem Binding.upTo_nil (h : b ⊆ c) : c.upTo b [] = b := by
  -- restricting to the variables of `b` loses none of them and keeps no other
  have hsub : b ⊆ c.upTo b [] := subset_restrict h fun v hv => by
    rw [hv]
    rfl
  refine (eq_of_subset hsub fun v hv => ?_).symm
  have hp := ((isBound_restrict c _ v).1 hv).1
  simp only [Condition.tupleVars, List.flatMap_nil, List.not_mem_nil, decide_false,
    Bool.or_false] at hp
  exact hp

theorem Binding.upTo_tuple_cons {t : Tuple} (h : b.Extends t.vars m) (front : List Condition) :
    c.upTo b (.tuple t :: front) = c.upTo m front := by
  refine congrArg c.restrict (funext fun v => Bool.eq_iff_iff.2 ?_)
  rw [Bool.or_eq_true, Bool.or_eq_true, decide_eq_true_iff, decide_eq_true_iff, h.2 v, or_assoc,
    ← List.mem_append]
  rfl

theorem satisfies_tuple_cons_iff {t : Tuple} :
    Satisfies F (.tuple t :: cs) b c ↔
      ∃ m, (b.Extends t.vars m ∧ ∃ f ∈ F, t.ground m = .ok f) ∧ Satisfies F cs m c := by
  have hguard : ∀ e, .guard e ∈ .tuple t :: cs ↔ .guard e ∈ cs := fun e =>
    List.mem_cons.trans (or_iff_right (Condition.guard_ne_tuple e t))
  refine ⟨fun h => ?_, fun ⟨m, ⟨hbm, f, hf, hground⟩, h⟩ => ?_⟩
  · rw [Satisfies] at h
    have ⟨hext, htuples, hguards, hneg⟩ := h
    have ⟨f, hf, hground⟩ := htuples t List.mem_cons_self
    -- the values for the first tuple are those that the satisfying binding has
    have hseen : ∀ v, (c.upTo b [.tuple t]).isBound v ↔ b.isBound v ∨ v ∈ t.vars := fun v => by
      rw [Binding.upTo, Binding.isBound_restrict, hext.2 v, Bool.or_eq_true, decide_eq_true_iff]
      show (b.isBound v = true ∨ v ∈ t.vars ++ []) ∧ (_ ∨ v ∈ t.vars ++ Condition.tupleVars cs) ↔ _
      rw [List.append_nil, List.mem_append, ← or_assoc]
      exact ⟨fun h => h.1, fun h => ⟨h, Or.inl h⟩⟩
    have hbm : b.Extends t.vars (c.upTo b [.tuple t]) := by
      refine ⟨Binding.subset_restrict hext.1 fun v hv => ?_, hseen⟩
      rw [hv]
      rfl
    have hmc : c.upTo b [.tuple t] ⊆ c := Binding.restrict_subset c _
    have ⟨f', hf'⟩ := Tuple.exists_ground_eq_ok_iff.2 fun v hv => (hseen v).2 (Or.inr hv)
    have hff' : f' = f := Except.ok.inj ((Tuple.ground_of_subset hmc hf').symm.trans hground)
    refine ⟨_, ⟨hbm, f, hf, hff' ▸ hf'⟩, ?_⟩
    rw [Satisfies]
    refine ⟨⟨hmc, fun v => ?_⟩, fun t' ht' => htuples t' (List.mem_cons_of_mem _ ht'),
      fun e he => hguards e ((hguard e).2 he), fun front body rest h => ?_⟩
    · rw [hext.2 v, hseen v, or_assoc, ← List.mem_append]
      rfl
    · rw [← Binding.upTo_tuple_cons hbm]
      exact (Condition.forall_negation_cons_iff.1 hneg).2 front body rest h
  · rw [Satisfies] at h ⊢
    have ⟨hext, htuples, hguards, hneg⟩ := h
    refine ⟨hbm.trans hext, fun t' ht' => ?_, fun e he => hguards e ((hguard e).1 he),
      Condition.forall_negation_cons_iff.2 ⟨fun body h => ?_, fun front body rest h => ?_⟩⟩
    · rcases List.mem_cons.1 ht' with ht' | ht'
      · cases ht'
        exact ⟨f, hf, Tuple.ground_of_subset hext.1 hground⟩
      · exact htuples t' ht'
    · exact absurd h.symm (Condition.negation_ne_tuple body t)
    · rw [Binding.upTo_tuple_cons hbm]
      exact hneg front body rest h

theorem satisfies_guard_cons_iff {e : Expr Term} :
    Satisfies F (.guard e :: cs) b c ↔ e.holds c = .ok true ∧ Satisfies F cs b c := by
  have htuple : ∀ t, .tuple t ∈ .guard e :: cs ↔ .tuple t ∈ cs := fun t =>
    List.mem_cons.trans (or_iff_right (Condition.guard_ne_tuple e t).symm)
  refine ⟨fun h => ?_, fun ⟨he, h⟩ => ?_⟩
  · rw [Satisfies] at h ⊢
    have ⟨hext, htuples, hguards, hneg⟩ := h
    refine ⟨hguards e List.mem_cons_self, hext, fun t ht => htuples t ((htuple t).2 ht),
      fun e' he' => hguards e' (List.mem_cons_of_mem _ he'), ?_⟩
    exact (Condition.forall_negation_cons_iff.1 hneg).2
  · rw [Satisfies] at h ⊢
    have ⟨hext, htuples, hguards, hneg⟩ := h
    refine ⟨hext, fun t ht => htuples t ((htuple t).1 ht), fun e' he' => ?_,
      Condition.forall_negation_cons_iff.2 ⟨fun body h => ?_, hneg⟩⟩
    · rcases List.mem_cons.1 he' with he' | he'
      · rw [Condition.guard_inj he']
        exact he
      · exact hguards e' he'
    · exact absurd h.symm (Condition.negation_ne_guard body e)

theorem satisfies_negation_cons_iff {body : List Condition} :
    Satisfies F (.negation body :: cs) b c ↔
      (¬ ∃ d, Satisfies F body b d) ∧ Satisfies F cs b c := by
  have htuple : ∀ t, .tuple t ∈ .negation body :: cs ↔ .tuple t ∈ cs := fun t =>
    List.mem_cons.trans (or_iff_right (Condition.negation_ne_tuple body t).symm)
  have hguard : ∀ e, .guard e ∈ .negation body :: cs ↔ .guard e ∈ cs := fun e =>
    List.mem_cons.trans (or_iff_right (Condition.negation_ne_guard body e).symm)
  refine ⟨fun h => ?_, fun ⟨hbody, h⟩ => ?_⟩
  · rw [Satisfies] at h
    have ⟨hext, htuples, hguards, hneg⟩ := h
    have ⟨hbody, hneg⟩ := Condition.forall_negation_cons_iff.1 hneg
    -- nothing stands before the first negation, so it sees the start
    have hbody : ¬ ∃ d, Satisfies F body (c.upTo b []) d := hbody body rfl
    rw [Binding.upTo_nil hext.1] at hbody
    refine ⟨hbody, ?_⟩
    rw [Satisfies]
    exact ⟨hext, fun t ht => htuples t ((htuple t).2 ht),
      fun e he => hguards e ((hguard e).2 he), hneg⟩
  · rw [Satisfies] at h ⊢
    have ⟨hext, htuples, hguards, hneg⟩ := h
    refine ⟨hext, fun t ht => htuples t ((htuple t).1 ht),
      fun e he => hguards e ((hguard e).1 he),
      Condition.forall_negation_cons_iff.2 ⟨fun body' h => ?_, hneg⟩⟩
    rw [← Condition.negation_inj h, Binding.upTo_nil hext.1]
    exact hbody

end Cons

/-! ## 4. Solving -/

/-- Whether solving some conditions, where it succeeds, finds the bindings that satisfy them. -/
def Exact (F : FactBase) (cs : List Condition) : Prop :=
  ∀ b sols, solve .builtin F cs b = .ok sols → ∀ c, c ∈ sols ↔ Satisfies F cs b c

section Exact

variable {F : FactBase} {cs : List Condition} {b c : Binding}

theorem exact_nil (F : FactBase) : Exact F [] := by
  intro b sols h c
  cases h
  rw [List.mem_singleton, satisfies_nil_iff]

theorem mem_solve_cons_iff (hcs : Exact F cs) {k : Condition} {mids sols : List Binding}
    (hmids : k.search .builtin F b = .ok mids) (h : solve .builtin F (k :: cs) b = .ok sols) :
    c ∈ sols ↔ ∃ m ∈ mids, Satisfies F cs m c := by
  have ⟨mids', hmids', hrest⟩ := exists_solve_cons_eq_ok_iff.1 ⟨sols, h⟩
  cases hmids.symm.trans hmids'
  rw [mem_of_solve_cons_eq_ok hmids h]
  refine ⟨fun ⟨m, hm, sols', hsols', hc⟩ => ⟨m, hm, (hcs m sols' hsols' c).1 hc⟩,
    fun ⟨m, hm, hc⟩ => ?_⟩
  have ⟨sols', hsols'⟩ := hrest m hm
  exact ⟨m, hm, sols', hsols', (hcs m sols' hsols' c).2 hc⟩

theorem exact_tuple_cons {t : Tuple} (ht : t.IsPlain) (hcs : Exact F cs) :
    Exact F (.tuple t :: cs) := by
  intro b sols h c
  have ⟨mids, hmids, _⟩ := solve_cons_eq_ok_iff.1 h
  have hquery := (search_tuple_eq_ok_iff ht).1 hmids
  rw [mem_solve_cons_iff hcs hmids h, satisfies_tuple_cons_iff]
  simp only [FactBase.mem_of_query_eq_ok hquery]

theorem exact_guard_cons {e : Expr Term} (hcs : Exact F cs) : Exact F (.guard e :: cs) := by
  intro b sols h c
  have ⟨mids, hmids, _⟩ := solve_cons_eq_ok_iff.1 h
  rw [mem_solve_cons_iff hcs hmids h, satisfies_guard_cons_iff]
  obtain ⟨p, hp, rfl⟩ := search_guard_eq_ok_iff.1 hmids
  -- the guard was tested early, and its truth is the same under all that satisfies the others
  have htruth : Satisfies F cs b c → e.holds c = .ok p := fun hc => by
    rw [Satisfies] at hc
    exact Expr.holds_of_subset hc.1.1 hp
  cases p with
  | true =>
    refine ⟨fun ⟨m, hm, hc⟩ => ?_, fun ⟨_, hc⟩ => ⟨b, List.mem_singleton_self b, hc⟩⟩
    rw [List.mem_singleton.1 hm] at hc
    exact ⟨htruth hc, hc⟩
  | false =>
    refine ⟨fun ⟨m, hm, _⟩ => absurd hm List.not_mem_nil, fun ⟨he, hc⟩ => ?_⟩
    cases he.symm.trans (htruth hc)

theorem exact_negation_cons {body : List Condition} (hbody : Exact F body) (hcs : Exact F cs) :
    Exact F (.negation body :: cs) := by
  intro b sols h c
  have ⟨mids, hmids, _⟩ := solve_cons_eq_ok_iff.1 h
  rw [mem_solve_cons_iff hcs hmids h, satisfies_negation_cons_iff]
  obtain ⟨inner, hinner, rfl⟩ := search_negation_eq_ok_iff.1 hmids
  -- the body has no solution exactly if nothing satisfies it
  have hnone : inner = [] ↔ ¬ ∃ d, Satisfies F body b d := by
    rw [List.eq_nil_iff_forall_not_mem, not_exists]
    exact forall_congr' fun d => not_congr (hbody b inner hinner d)
  rw [← hnone]
  by_cases hi : inner = []
  · rw [if_pos hi, and_iff_right hi]
    simp only [List.mem_singleton, exists_eq_left]
  · rw [if_neg hi]
    exact ⟨fun ⟨m, hm, _⟩ => absurd hm List.not_mem_nil, fun ⟨h, _⟩ => absurd h hi⟩

theorem exact_of_forall (h : ∀ k ∈ cs, ∀ cs, Exact F cs → Exact F (k :: cs)) : Exact F cs := by
  induction cs with
  | nil => exact exact_nil F
  | cons k cs ih =>
    have ⟨hk, hcs⟩ := List.forall_mem_cons.1 h
    exact hk cs (ih hcs)

theorem exact_cons {k : Condition} (hk : k.WellFormed) :
    ∀ cs, Exact F cs → Exact F (k :: cs) := by
  -- by induction on the nesting of negations
  induction hk with
  | tuple t ht => exact fun cs hcs => exact_tuple_cons ht hcs
  | guard e => exact fun cs hcs => exact_guard_cons hcs
  | negation body _ ih => exact fun cs hcs => exact_negation_cons (exact_of_forall ih) hcs

/-- Where solving succeeds, the solutions are the bindings that satisfy the conditions. -/
theorem mem_solve_iff_satisfies (hcs : ∀ k ∈ cs, k.WellFormed) {sols : List Binding}
    (h : solve .builtin F cs b = .ok sols) (c : Binding) : c ∈ sols ↔ Satisfies F cs b c :=
  exact_of_forall (fun k hk => exact_cons (hcs k hk)) b sols h c

end Exact

/-- The nodes other than `1` that no live node has an edge to: `(node ?x)` with
`(not (edge ?y ?x) (not (dead ?y)))` and `(if (!= ?x 1))`. -/
def idleNodes (node edge dead : Atom) : List Condition :=
  let x : Term := .var ⟨0⟩
  let y : Term := .var ⟨1⟩
  [.tuple [.const node, x],
   .negation [.tuple [.const edge, y, x], .negation [.tuple [.const dead, y]]],
   .guard (.binary (.equality .ne) (.leaf x) (.leaf (.const (.integer 1))))]

/-- Of the nodes `1`, `2` and `3`, with an edge from `3`, which is dead, to `2` and one from `1` to
`3`, only `2` is meant. -/
theorem mem_solve_iff_satisfies_idleNodes :
    let node : Atom := .symbol ⟨2⟩
    let edge : Atom := .symbol ⟨3⟩
    let dead : Atom := .symbol ⟨4⟩
    let F : FactBase := .ofList
      [[node, .integer 1], [node, .integer 2], [node, .integer 3], [dead, .integer 3],
       [edge, .integer 3, .integer 2], [edge, .integer 1, .integer 3]]
    let two : Binding := ⟨⟨[(0, .integer 2)], by decide⟩⟩
    (∀ k ∈ idleNodes node edge dead, k.WellFormed) ∧
      solve .builtin F (idleNodes node edge dead) ∅ = .ok [two] ∧
      ∀ c, c ∈ [two] ↔ Satisfies F (idleNodes node edge dead) ∅ c := by
  intro node edge dead F two
  have hnodes : Condition.WellFormed (.tuple [.const node, .var ⟨0⟩]) :=
    .tuple _ (by decide)
  have hedges : Condition.WellFormed (.tuple [.const edge, .var ⟨1⟩, .var ⟨0⟩]) :=
    .tuple _ (by decide)
  have hdead : Condition.WellFormed (.tuple [.const dead, .var ⟨1⟩]) :=
    .tuple _ (by decide)
  have hwf : ∀ k ∈ idleNodes node edge dead, k.WellFormed := by
    refine List.forall_mem_cons.2 ⟨hnodes, List.forall_mem_cons.2 ⟨.negation _ ?_,
      List.forall_mem_singleton.2 (.guard _)⟩⟩
    exact List.forall_mem_cons.2 ⟨hedges, List.forall_mem_singleton.2
      (.negation _ (List.forall_mem_singleton.2 hdead))⟩
  have hsolve : solve .builtin F (idleNodes node edge dead) ∅ = .ok [two] := by decide
  exact ⟨hwf, hsolve, mem_solve_iff_satisfies hwf hsolve⟩

end ForwardChaining
