import ForwardChaining.Proofs.Budget
import ForwardChaining.Proofs.Confluence
import ForwardChaining.Proofs.Distinctness
import ForwardChaining.Proofs.Reachability
import ForwardChaining.Proofs.Satisfaction
import Mathlib.Data.Finset.Max

/-!
# Maximum — a rule that finds the greatest number

`(number ?x)` with `(not (number ?y) (if (> ?y ?x)))` holds for the greatest number and for no other. What
the rule adds is no number, so this is the case in every state, and the rule never has another candidate.
Where there is a single candidate each time, the strategy has no choice (`Run.after_of_single`). So all
runs add the greatest number and then nothing (`Domain.maximum_outcome`).
-/

namespace ForwardChaining

open Relation (ReflTransGen)

/-! ## 1. Runs without a choice -/

section Single

variable {σ : Type}

theorem Engine.candidates_of_single (r : Rule) (forms : Registry) (productiveOnly : Bool) (F : FactBase) :
    (Engine.mk [r] forms productiveOnly).candidates F
      = (Engine.mk [r] forms productiveOnly).candidatesOf F r 0 := by
  show ([(r, 0)].mapM (fun p : Rule × Nat => (Engine.mk [r] forms productiveOnly).candidatesOf F p.1 p.2)
    >>= fun perRule => pure perRule.flatten) = _
  rw [List.mapM_cons, List.mapM_nil]
  cases (Engine.mk [r] forms productiveOnly).candidatesOf F r 0 with
  | error err => rfl
  | ok cs =>
    show Except.ok (cs ++ []) = _
    rw [List.append_nil]

/-- Where there is a single candidate each time, a run that chooses what is there fires it. -/
theorem Run.after_of_single {r : Run σ} {F : Nat → FactBase} {n : Nat} (hphase : r.phase ≠ .finished)
    (hrange : r.strategy.InRange r.state) (hstart : r.facts = F 0)
    (h : ∀ k < n, ∃ c, r.engine.candidates (F k) = .ok [c] ∧ c.fire (F k) = .ok (F (k + 1))) :
    (∀ k < n, r.answer k = .ok .derived) ∧ (r.after n).facts = F n := by
  induction n with
  | zero => exact ⟨fun k hk => absurd hk (Nat.not_lt_zero k), hstart⟩
  | succ n ih =>
    obtain ⟨hderived, hfacts⟩ := ih fun k hk => h k (Nat.lt_succ_of_lt hk)
    obtain ⟨c, hcs, hfire⟩ := h n (Nat.lt_succ_self n)
    -- the strategy is asked about one candidate, in a state that it can come to
    have hchoice : ([c] : List Candidate)[((r.after n).strategy [c] (r.after n).state).1]? = some c := by
      have hlt := hrange _ (reaches_after r n) [c] (List.cons_ne_nil c [])
      rw [strategy_after, Nat.lt_one_iff.1 hlt]
      rfl
    rw [← hfacts] at hcs hfire
    rw [← engine_after r n] at hcs
    have hstep := step_of_getElem? (phase_after_ne_finished hphase hderived) hcs hchoice hfire
    constructor
    · intro k hk
      rcases Nat.lt_succ_iff_lt_or_eq.1 hk with hk | rfl
      · exact hderived k hk
      · exact congrArg Prod.fst hstep
    · rw [after_succ, hstep]

/-- `F` at the start and `G` after any number of steps. -/
def FactBase.andThen (F G : FactBase) : Nat → FactBase
  | 0 => F
  | _ + 1 => G

namespace Run

variable {r : Run σ} {G : FactBase} {n : Nat}

/-- A run whose single candidate gives `G`, and then has no effect, uses up its budget. -/
theorem complete_of_single_stays (hphase : r.phase ≠ .finished) (hrange : r.strategy.InRange r.state)
    (hfirst : ∃ c, r.engine.candidates r.facts = .ok [c] ∧ c.fire r.facts = .ok G)
    (hstays : ∃ c, r.engine.candidates G = .ok [c] ∧ c.fire G = .ok G) (hn : 1 ≤ n) :
    r.complete n = .ok ⟨G, r.steps + n, false⟩ := by
  have hfires : ∀ k < n, ∃ c, r.engine.candidates (r.facts.andThen G k) = .ok [c] ∧
      c.fire (r.facts.andThen G k) = .ok (r.facts.andThen G (k + 1)) := by
    intro k _
    cases k with
    | zero => exact hfirst
    | succ k => exact hstays
  obtain ⟨hderived, hfacts⟩ := after_of_single hphase hrange rfl hfires
  rw [complete_of_forall_derived hderived, hfacts]
  cases n with
  | zero => omega
  | succ n => rfl

/-- A run whose single candidate gives `G`, where there is nothing to do, ends after one step. -/
theorem complete_of_single_ends (hphase : r.phase ≠ .finished) (hrange : r.strategy.InRange r.state)
    (hfirst : ∃ c, r.engine.candidates r.facts = .ok [c] ∧ c.fire r.facts = .ok G)
    (hends : r.engine.candidates G = .ok []) (hn : 2 ≤ n) :
    r.complete n = .ok ⟨G, r.steps + 1, true⟩ := by
  have hfires : ∀ k < 1, ∃ c, r.engine.candidates (r.facts.andThen G k) = .ok [c] ∧
      c.fire (r.facts.andThen G k) = .ok (r.facts.andThen G (k + 1)) := by
    intro k hk
    rw [Nat.lt_one_iff.1 hk]
    exact hfirst
  obtain ⟨hderived, hfacts⟩ := after_of_single hphase hrange rfl hfires
  have hend : r.answer 1 = .ok .fixpoint := by
    apply step_of_candidates_eq_nil (phase_after_ne_finished hphase hderived)
    rw [engine_after, hfacts]
    exact hends
  rw [complete_of_fixpoint hderived (Or.inl hend) hn, hfacts]
  rfl

end Run

end Single

/-! ## 2. Conditions that can be solved -/

section Solvable

variable {F : FactBase} {b m : Binding} {cs : List Condition} {s : Symbol} {v : Variable}

theorem exists_solve_tuple_cons_iff {t : Tuple} (ht : t.IsPlain) :
    (∃ sols, solve .builtin F (.tuple t :: cs) b = .ok sols) ↔
      ∀ m, (b.Extends t.vars m ∧ ∃ f ∈ F, t.ground m = .ok f) → ∃ sols, solve .builtin F cs m = .ok sols := by
  obtain ⟨mids, hmids⟩ := F.exists_query_eq_ok t b
  simp only [exists_solve_cons_eq_ok_iff, search_tuple_eq_ok_iff ht, hmids, Except.ok.injEq,
    exists_eq_left', FactBase.mem_of_query_eq_ok hmids]

theorem exists_solve_singleton_iff {c : Condition} :
    (∃ sols, solve .builtin F [c] b = .ok sols) ↔ ∃ sols, c.search .builtin F b = .ok sols := by
  rw [exists_solve_cons_eq_ok_iff]
  apply exists_congr
  intro mids
  apply and_iff_left
  intro m _
  exact ⟨[m], rfl⟩

theorem Tuple.ground_pair_eq_ok_iff {f : Fact} :
    Tuple.ground m [.const (.symbol s), .var v] = .ok f ↔ ∃ a, m.get? v = some a ∧ f = [.symbol s, a] := by
  have hvar (a : Atom) : (Term.var v).ground m = .ok a ↔ m.get? v = some a := by
    simp only [Term.ground_eq_ok_iff, reduceCtorEq, Term.var.injEq, exists_eq_left', false_or]
  rw [Tuple.ground_cons_eq_ok_iff]
  constructor
  · rintro ⟨_, _, hconst, hrest, rfl⟩
    obtain ⟨a, _, ha, hnil, rfl⟩ := Tuple.ground_cons_eq_ok_iff.1 hrest
    cases hconst
    cases hnil
    exact ⟨a, (hvar a).1 ha, rfl⟩
  · rintro ⟨a, ha, rfl⟩
    have hrest : Tuple.ground m [.var v] = .ok [a] :=
      Tuple.ground_cons_eq_ok_iff.2 ⟨a, [], (hvar a).2 ha, rfl, rfl⟩
    exact ⟨.symbol s, [a], rfl, hrest, rfl⟩

/-- What is known about the symbol gives the variable its values. -/
theorem extends_and_ground_pair_iff (hv : b.get? v = none) :
    (b.Extends [v] m ∧ ∃ f ∈ F, Tuple.ground m [.const (.symbol s), .var v] = .ok f) ↔
      ∃ a, [.symbol s, a] ∈ F ∧ b.extend v a = .ok m := by
  simp only [Tuple.ground_pair_eq_ok_iff]
  constructor
  · rintro ⟨hext, _, hf, a, ha, rfl⟩
    obtain ⟨c, hc, hextc, hca⟩ := Binding.exists_extend a hv
    have hsub : c ⊆ m := by
      rw [Binding.subset_iff]
      intro w x hw
      rw [Binding.get?_extend hc] at hw
      by_cases hwv : w = v
      · rw [if_pos hwv] at hw
        rw [hwv, ha, hw]
      · rw [if_neg hwv] at hw
        exact Binding.get?_of_subset hext.1 hw
    rw [hextc.eq_of_subset hext hsub (Binding.subset_refl m)] at hc
    exact ⟨a, hf, hc⟩
  · rintro ⟨a, ha, hm⟩
    obtain ⟨c, hc, hext, hca⟩ := Binding.exists_extend a hv
    cases hm.symm.trans hc
    exact ⟨hext, _, ha, a, hca, rfl⟩

end Solvable

/-! ## 3. The greatest number -/

/-- Whether the facts are about exactly the given integers, where they are about a symbol and one thing. -/
def FactBase.Enumerates (F : FactBase) (number : Symbol) (is : List Integer) : Prop :=
  ∀ a, [.symbol number, a] ∈ F ↔ ∃ i ∈ is, a = .integer i

/-- `(number ?y)` and `(if (> ?y ?x))`. -/
def Condition.above (number : Symbol) (x y : Variable) : List Condition :=
  [.tuple [.const (.symbol number), .var y],
    .guard (.binary (.order .gt) (.leaf (.var y)) (.leaf (.var x)))]

/-- The rule `(number ?x)` and `(not (number ?y) (if (> ?y ?x)))`, with `(max ?x)` as conclusion. -/
def Rule.maximum (number max : Symbol) (x y : Variable) (scope : Option VariableScope) : Rule where
  conditions := [.tuple [.const (.symbol number), .var x], .negation (Condition.above number x y)]
  conclusions := [[.const (.symbol max), .var x]]
  scope := scope

section Maximum

variable {number max : Symbol} {x y : Variable} {scope : Option VariableScope} {is : List Integer}
  {F : FactBase} {b c : Binding} {i j m : Integer}

theorem Integer.exists_greatest (his : is ≠ []) : ∃ m ∈ is, ∀ i ∈ is, i ≤ m := by
  have hnonempty : is.toFinset.Nonempty := (List.toFinset_nonempty_iff is).2 his
  obtain ⟨m, hm, hmax⟩ := is.toFinset.exists_max_image Int64.toInt hnonempty
  simp only [List.mem_toFinset] at hm hmax
  exact ⟨m, hm, fun i hi => Int64.le_iff_toInt_le.2 (hmax i hi)⟩

theorem Expr.holds_gt (hx : b.get? x = some (.integer i)) (hy : b.get? y = some (.integer j)) :
    (Expr.binary (.order .gt) (.leaf (.var y)) (.leaf (.var x))).holds b = .ok (decide (i < j)) := by
  simp only [Expr.holds, Expr.eval, Term.ground, hx, hy]
  rfl

theorem Tuple.isPlain_pair (hnot : number ≠ .negation) (hif : number ≠ .guard) (v : Variable) :
    Tuple.IsPlain [.const (.symbol number), .var v] :=
  ⟨fun h => hnot (Option.some.inj h), fun h => hif (Option.some.inj h)⟩

/-- A variable without a value can be each of the numbers. -/
theorem extends_number_iff {v : Variable} (hF : F.Enumerates number is) (hv : b.get? v = none) :
    (b.Extends [v] c ∧ ∃ f ∈ F, Tuple.ground c [.const (.symbol number), .var v] = .ok f) ↔
      ∃ i ∈ is, b.extend v (.integer i) = .ok c := by
  rw [extends_and_ground_pair_iff hv]
  constructor
  · rintro ⟨a, ha, hc⟩
    obtain ⟨i, hi, rfl⟩ := (hF a).1 ha
    exact ⟨i, hi, hc⟩
  · rintro ⟨i, hi, hc⟩
    exact ⟨.integer i, (hF _).2 ⟨i, hi, rfl⟩, hc⟩

theorem Binding.get?_of_extend_empty {a : Atom} (hxy : x ≠ y) (hc : (∅ : Binding).extend x a = .ok c) :
    c.get? x = some a ∧ c.get? y = none := by
  rw [get?_extend hc, get?_extend hc, if_pos rfl, if_neg hxy.symm]
  exact ⟨rfl, rfl⟩

section Above

variable (hF : F.Enumerates number is) (hx : b.get? x = some (.integer i)) (hy : b.get? y = none)

include hx hy in
theorem holds_gt_of_extend (hc : b.extend y (.integer j) = .ok c) :
    (Expr.binary (.order .gt) (.leaf (.var y)) (.leaf (.var x))).holds c = .ok (decide (i < j)) := by
  have hne : x ≠ y := by
    rintro rfl
    cases hx.symm.trans hy
  apply Expr.holds_gt
  · rw [Binding.get?_extend hc, if_neg hne, hx]
  · rw [Binding.get?_extend hc, if_pos rfl]

include hF hx hy

theorem exists_solve_above (hnot : number ≠ .negation) (hif : number ≠ .guard) :
    ∃ sols, solve .builtin F (Condition.above number x y) b = .ok sols := by
  apply (exists_solve_tuple_cons_iff (Tuple.isPlain_pair hnot hif y)).2
  intro c hc
  obtain ⟨j, _, hj⟩ := (extends_number_iff hF hy).1 hc
  rw [exists_solve_singleton_iff]
  exact ⟨_, search_guard_eq_ok_iff.2 ⟨_, holds_gt_of_extend hx hy hj, rfl⟩⟩

theorem exists_satisfies_above_iff :
    (∃ d, Satisfies F (Condition.above number x y) b d) ↔ ∃ j ∈ is, i < j := by
  unfold Condition.above
  simp only [satisfies_tuple_cons_iff, satisfies_guard_cons_iff, satisfies_nil_iff]
  constructor
  · rintro ⟨_, c, hc, hgt, rfl⟩
    obtain ⟨j, hj, hcj⟩ := (extends_number_iff hF hy).1 hc
    rw [holds_gt_of_extend hx hy hcj, Except.ok.injEq, decide_eq_true_iff] at hgt
    exact ⟨j, hj, hgt⟩
  · rintro ⟨j, hj, hlt⟩
    obtain ⟨c, hc, _⟩ := Binding.exists_extend (.integer j) hy
    refine ⟨c, c, (extends_number_iff hF hy).2 ⟨j, hj, hc⟩, ?_, rfl⟩
    rw [holds_gt_of_extend hx hy hc, decide_eq_true hlt]

end Above

namespace Rule

theorem exists_solutions_maximum (hnot : number ≠ .negation) (hif : number ≠ .guard) (hxy : x ≠ y)
    (hF : F.Enumerates number is) :
    ∃ sols, (maximum number max x y scope).solutions .builtin F = .ok sols := by
  apply (exists_solve_tuple_cons_iff (Tuple.isPlain_pair hnot hif x)).2
  intro c hc
  obtain ⟨i, _, hci⟩ := (extends_number_iff hF rfl).1 hc
  obtain ⟨hcx, hcy⟩ := Binding.get?_of_extend_empty hxy hci
  obtain ⟨inner, hinner⟩ := exists_solve_above hF hcx hcy hnot hif
  rw [exists_solve_singleton_iff]
  exact ⟨_, search_negation_eq_ok_iff.2 ⟨inner, hinner, rfl⟩⟩

/-- The conditions hold for a number that is at least as great as all of them. -/
theorem satisfies_maximum_iff (hxy : x ≠ y) (hF : F.Enumerates number is) :
    Satisfies F (maximum number max x y scope).conditions ∅ c ↔
      ∃ i ∈ is, (∅ : Binding).extend x (.integer i) = .ok c ∧ ∀ j ∈ is, j ≤ i := by
  unfold maximum
  simp only [satisfies_tuple_cons_iff, satisfies_negation_cons_iff, satisfies_nil_iff]
  constructor
  · rintro ⟨_, hc, hnone, rfl⟩
    obtain ⟨i, hi, hci⟩ := (extends_number_iff hF rfl).1 hc
    obtain ⟨hcx, hcy⟩ := Binding.get?_of_extend_empty hxy hci
    rw [exists_satisfies_above_iff hF hcx hcy] at hnone
    exact ⟨i, hi, hci, fun j hj => Int64.not_lt.1 fun hlt => hnone ⟨j, hj, hlt⟩⟩
  · rintro ⟨i, hi, hci, hmax⟩
    obtain ⟨hcx, hcy⟩ := Binding.get?_of_extend_empty hxy hci
    refine ⟨c, (extends_number_iff hF rfl).2 ⟨i, hi, hci⟩, ?_, rfl⟩
    rw [exists_satisfies_above_iff hF hcx hcy]
    rintro ⟨j, hj, hlt⟩
    exact Int64.not_lt.2 (hmax j hj) hlt

theorem exact_maximum (hnot : number ≠ .negation) (hif : number ≠ .guard) :
    Exact F (maximum number max x y scope).conditions := by
  have hplain := Tuple.isPlain_pair hnot hif
  unfold maximum Condition.above
  apply exact_tuple_cons (hplain x)
  apply exact_negation_cons _ (exact_nil F)
  exact exact_tuple_cons (hplain y) (exact_guard_cons (exact_nil F))

/-- Over the numbers, the rule has the greatest one as its only solution. -/
theorem solutions_maximum (hnot : number ≠ .negation) (hif : number ≠ .guard) (hxy : x ≠ y)
    (hF : F.Enumerates number is) (hm : m ∈ is) (hmax : ∀ j ∈ is, j ≤ m)
    (hb : (∅ : Binding).extend x (.integer m) = .ok b) :
    (maximum number max x y scope).solutions .builtin F = .ok [b] := by
  obtain ⟨sols, hsols⟩ : ∃ sols, (maximum number max x y scope).solutions .builtin F = .ok sols :=
    exists_solutions_maximum hnot hif hxy hF
  rw [hsols, eq_singleton_of_nodup (solve_nodup hsols) (x := b)]
  intro c
  rw [exact_maximum hnot hif ∅ sols hsols c, satisfies_maximum_iff hxy hF]
  constructor
  · rintro ⟨i, hi, hc, hmax'⟩
    rw [Int64.le_antisymm (hmax i hi) (hmax' m hm), hb] at hc
    exact (Except.ok.inj hc).symm
  · rintro rfl
    exact ⟨m, hm, hb, hmax⟩

theorem instances_maximum (hb : b.get? x = some (.integer m)) :
    (maximum number max x y scope).instances b = .ok [[.symbol max, .integer m]] := by
  have hground : Tuple.ground b [.const (.symbol max), .var x] = .ok [.symbol max, .integer m] :=
    Tuple.ground_pair_eq_ok_iff.2 ⟨_, hb, rfl⟩
  show [_].mapM _ = _
  rw [List.mapM_cons, hground]
  rfl

end Rule

/-! ## 4. Candidates -/

theorem Candidate.fire_maximum (hb : b.get? x = some (.integer m)) (index : Nat) :
    (Candidate.mk index (.maximum number max x y scope) b).fire F
      = .ok (F.insert [.symbol max, .integer m]) :=
  fire_eq_ok_iff.2 ⟨_, Rule.instances_maximum hb, rfl⟩

/-- The effect is that of the new fact. -/
theorem Candidate.isEffective_maximum (hb : b.get? x = some (.integer m)) :
    (Candidate.mk 0 (.maximum number max x y scope) b).isEffective F
      = decide ([.symbol max, .integer m] ∉ F) := by
  unfold isEffective
  rw [apply_eq_ok_iff.2 (fire_maximum hb 0)]
  by_cases hknown : [.symbol max, .integer m] ∈ F
  · rw [FactBase.insert_of_mem hknown]
    simp only [Nat.lt_irrefl, hknown, not_true_eq_false]
  · have hsize : F.size < (F.insert [.symbol max, .integer m]).size := by
      unfold FactBase.size
      rw [FactBase.facts_insert_of_not_mem hknown, List.length_append, List.length_singleton]
      omega
    simp only [hsize, hknown, not_false_eq_true]

theorem FactBase.Enumerates.insert (hF : F.Enumerates number is) (hne : number ≠ max) (a : Atom) :
    (F.insert [.symbol max, a]).Enumerates number is := by
  intro a'
  rw [mem_insert, hF a']
  apply or_iff_left
  intro h
  exact hne (Atom.symbol.inj (List.cons.inj h).1)

/-- What the rule adds is no number. -/
theorem FactBase.Enumerates.leadsTo {G : FactBase} {productiveOnly : Bool} (hF : F.Enumerates number is)
    (hne : number ≠ max)
    (h : (Engine.mk [.maximum number max x y scope] .builtin productiveOnly).LeadsTo F G) :
    G.Enumerates number is := by
  obtain ⟨cs, hcs, c, hc, hfire⟩ := h
  have hrule : c.rule = .maximum number max x y scope :=
    List.mem_singleton.1 (List.mem_of_getElem? ((Engine.mem_of_candidates_eq_ok hcs c).1 hc).1)
  intro a
  rw [Candidate.mem_of_fire_eq_ok hfire, hF a, hrule]
  apply or_iff_left
  rintro ⟨t, ht, hground⟩
  rw [List.mem_singleton.1 ht] at hground
  obtain ⟨_, _, h⟩ := Tuple.ground_pair_eq_ok_iff.1 hground
  exact hne (Atom.symbol.inj (List.cons.inj h).1)

section Candidates

variable (hnot : number ≠ .negation) (hif : number ≠ .guard) (hxy : x ≠ y) (hF : F.Enumerates number is)
  (hm : m ∈ is) (hmax : ∀ j ∈ is, j ≤ m)

include hnot hif hxy hF hm hmax

namespace Engine

theorem candidates_maximum (hb : (∅ : Binding).extend x (.integer m) = .ok b) :
    (Engine.mk [.maximum number max x y scope] .builtin false).candidates F
      = .ok [⟨0, .maximum number max x y scope, b⟩] := by
  have hsolutions : (Rule.maximum number max x y scope).solutions .builtin F = .ok [b] :=
    Rule.solutions_maximum hnot hif hxy hF hm hmax hb
  rw [candidates_of_single, candidatesOf_eq_ok_map rfl hsolutions, List.map_singleton]

/-- In productive mode the greatest number is passed over once it has been added. -/
theorem candidates_productive_maximum (hb : (∅ : Binding).extend x (.integer m) = .ok b) :
    (Engine.mk [.maximum number max x y scope] .builtin true).candidates F
      = .ok (if [.symbol max, .integer m] ∈ F then []
          else [⟨0, .maximum number max x y scope, b⟩]) := by
  have hbx : b.get? x = some (.integer m) := (Binding.get?_of_extend_empty hxy hb).1
  have hsolutions : (Rule.maximum number max x y scope).solutions .builtin F = .ok [b] :=
    Rule.solutions_maximum hnot hif hxy hF hm hmax hb
  have hanswers : ∀ r ∈ [Rule.maximum number max x y scope], ∀ sols, r.solutions .builtin F = .ok sols →
      ∀ c ∈ sols, ∃ p, r.isProductive c F = .ok p := by
    intro r hr sols hsols c hc
    rw [List.mem_singleton.1 hr] at hsols ⊢
    cases hsolutions.symm.trans hsols
    rw [List.mem_singleton.1 hc]
    exact Rule.exists_isProductive_eq_ok (Rule.exists_instances_eq_ok_iff.1 ⟨_, Rule.instances_maximum hbx⟩)
  rw [candidates_productive hanswers, candidates_maximum hnot hif hxy hF hm hmax hb]
  show Except.ok (List.filter _ [_]) = _
  rw [List.filter_singleton, Candidate.isEffective_maximum hbx]
  by_cases hknown : [.symbol max, .integer m] ∈ F
  · rw [if_pos hknown, decide_eq_false (not_not.2 hknown)]
    rfl
  · rw [if_neg hknown, decide_eq_true hknown]
    rfl

/-- While the greatest number is new, or in the mode that does not ask, it is there to be added. -/
theorem exists_candidate_maximum {productiveOnly : Bool}
    (hnew : productiveOnly = true → [.symbol max, .integer m] ∉ F) :
    ∃ c, (Engine.mk [.maximum number max x y scope] .builtin productiveOnly).candidates F = .ok [c] ∧
      c.fire F = .ok (F.insert [.symbol max, .integer m]) := by
  obtain ⟨b, hb, _, hbx⟩ := Binding.exists_extend (.integer m) (Binding.get?_empty x)
  refine ⟨⟨0, .maximum number max x y scope, b⟩, ?_, Candidate.fire_maximum hbx 0⟩
  cases productiveOnly with
  | false => exact candidates_maximum hnot hif hxy hF hm hmax hb
  | true => rw [candidates_productive_maximum hnot hif hxy hF hm hmax hb, if_neg (hnew rfl)]

end Engine

end Candidates

/-! ## 5. Runs -/

namespace Domain

/-- The domain of a rule and some numbers. -/
def ofNumbers (symbols : SymbolTable) (r : Rule) (number : Symbol) (is : List Integer) : Domain where
  symbols := symbols
  rules := [r]
  facts := is.map fun i => [.symbol number, .integer i]

section OfNumbers

variable {symbols : SymbolTable} {r : Rule}

theorem mem_initialFacts_ofNumbers {f : Fact} :
    f ∈ (ofNumbers symbols r number is).initialFacts ↔ ∃ i ∈ is, [.symbol number, .integer i] = f := by
  rw [initialFacts, FactBase.mem_ofList, ofNumbers, List.mem_map]

theorem enumerates_ofNumbers : (ofNumbers symbols r number is).initialFacts.Enumerates number is := by
  intro a
  rw [mem_initialFacts_ofNumbers]
  simp only [List.cons.injEq, and_true, true_and, eq_comm]

theorem not_mem_initialFacts_ofNumbers (hne : number ≠ max) (a : Atom) :
    [.symbol max, a] ∉ (ofNumbers symbols r number is).initialFacts := by
  intro h
  obtain ⟨i, _, hi⟩ := mem_initialFacts_ofNumbers.1 h
  exact hne (Atom.symbol.inj (List.cons.inj hi).1)

end OfNumbers

section Outcomes

variable {symbols : SymbolTable} {σ : Type} {strategy : Strategy σ} {state : σ} {n : Nat}
  (hnot : number ≠ .negation) (hif : number ≠ .guard) (hne : number ≠ max) (hxy : x ≠ y)
  (hm : m ∈ is) (hmax : ∀ j ∈ is, j ≤ m) (hrange : strategy.InRange state)

include hnot hif hne hxy hm hmax hrange

/-- The first step adds the greatest number, and the others add it again. -/
theorem outcome_maximum (hn : 1 ≤ n) :
    let d := ofNumbers symbols (.maximum number max x y scope) number is
    (Simulation.mk d strategy state n false).outcome
      = .ok ⟨d.initialFacts.insert [.symbol max, .integer m], n, false⟩ := by
  intro d
  have hcandidate {F : FactBase} (hF : F.Enumerates number is) :
      ∃ c, (d.engine false).candidates F = .ok [c] ∧ c.fire F = .ok (F.insert [.symbol max, .integer m]) :=
    Engine.exists_candidate_maximum hnot hif hxy hF hm hmax (fun h => by cases h)
  have hstart : d.initialFacts.Enumerates number is := enumerates_ofNumbers
  obtain ⟨c, hcs, hfire⟩ := hcandidate (hstart.insert hne (.integer m))
  rw [FactBase.insert_of_mem (FactBase.mem_insert.2 (Or.inr rfl))] at hfire
  have hcomplete := Run.complete_of_single_stays (r := (Simulation.mk d strategy state n false).start)
    (fun h => by cases h) hrange (hcandidate hstart) ⟨c, hcs, hfire⟩ hn
  have hsteps : (Simulation.mk d strategy state n false).start.steps + n = n := Nat.zero_add n
  rw [hsteps] at hcomplete
  exact hcomplete

/-- In productive mode the first step adds the greatest number, and then there is nothing to do. -/
theorem outcome_maximum_productive (hn : 2 ≤ n) :
    let d := ofNumbers symbols (.maximum number max x y scope) number is
    (Simulation.mk d strategy state n true).outcome
      = .ok ⟨d.initialFacts.insert [.symbol max, .integer m], 1, true⟩ := by
  intro d
  have hstart : d.initialFacts.Enumerates number is := enumerates_ofNumbers
  have hfirst : ∃ c, (d.engine true).candidates d.initialFacts = .ok [c] ∧
      c.fire d.initialFacts = .ok (d.initialFacts.insert [.symbol max, .integer m]) :=
    Engine.exists_candidate_maximum hnot hif hxy hstart hm hmax
      (fun _ => not_mem_initialFacts_ofNumbers hne (.integer m))
  have hends : (d.engine true).candidates (d.initialFacts.insert [.symbol max, .integer m]) = .ok [] := by
    obtain ⟨b, hb, _⟩ := Binding.exists_extend (.integer m) (Binding.get?_empty x)
    show (Engine.mk [_] .builtin true).candidates _ = _
    rw [Engine.candidates_productive_maximum hnot hif hxy (hstart.insert hne _) hm hmax hb,
      if_pos (FactBase.mem_insert.2 (Or.inr rfl))]
  exact Run.complete_of_single_ends (r := (Simulation.mk d strategy state n true).start)
    (fun h => by cases h) hrange hfirst hends hn

end Outcomes

/-- From numbers in any order and with repetitions, the rule finds the greatest. In every state that the
engine can come to, in either mode, it is the only candidate. So whatever the strategy, the run ends with the
initial facts and this one: it goes on without effect as long as the budget allows, and in productive mode it
ends after one step. -/
theorem maximum_outcome (hnot : number ≠ .negation) (hif : number ≠ .guard) (hne : number ≠ max)
    (hxy : x ≠ y) (his : is ≠ []) (symbols : SymbolTable) (scope : Option VariableScope) :
    let r : Rule := .maximum number max x y scope
    let d := ofNumbers symbols r number is
    ∃ m ∈ is, (∀ i ∈ is, i ≤ m) ∧
      ∃ (b : Binding) (F : FactBase), (∅ : Binding).extend x (.integer m) = .ok b ∧
        F.facts = d.initialFacts.facts ++ [[.symbol max, .integer m]] ∧
        (∀ productiveOnly G, ReflTransGen (d.engine productiveOnly).LeadsTo d.initialFacts G →
          (d.engine false).candidates G = .ok [⟨0, r, b⟩]) ∧
        ∀ (σ : Type) (strategy : Strategy σ) (state : σ), strategy.InRange state →
          (∀ n, 1 ≤ n → (Simulation.mk d strategy state n false).outcome = .ok ⟨F, n, false⟩) ∧
          ∀ n, 2 ≤ n → (Simulation.mk d strategy state n true).outcome = .ok ⟨F, 1, true⟩ := by
  intro r d
  obtain ⟨m, hm, hmax⟩ := Integer.exists_greatest his
  obtain ⟨b, hb, _⟩ := Binding.exists_extend (.integer m) (Binding.get?_empty x)
  refine ⟨m, hm, hmax, b, d.initialFacts.insert [.symbol max, .integer m], hb,
    FactBase.facts_insert_of_not_mem (not_mem_initialFacts_ofNumbers hne _), ?_, ?_⟩
  · intro productiveOnly G hG
    -- the numbers are the same in all states
    have hkept : G.Enumerates number is := by
      induction hG with
      | refl => exact enumerates_ofNumbers
      | tail _ hlead ih => exact ih.leadsTo hne hlead
    exact Engine.candidates_maximum hnot hif hxy hkept hm hmax hb
  · intro σ strategy state hrange
    exact ⟨fun n hn => outcome_maximum hnot hif hne hxy hm hmax hrange hn,
      fun n hn => outcome_maximum_productive hnot hif hne hxy hm hmax hrange hn⟩

/-- Of `3`, `-1`, `7`, `7` and `0`, the greatest is found with the last candidate chosen each time. -/
theorem maximum_outcome_scores :
    let number : Symbol := ⟨2⟩
    let max : Symbol := ⟨3⟩
    let is : List Integer := [3, -1, 7, 7, 0]
    let d := ofNumbers .initial (.maximum number max ⟨0⟩ ⟨1⟩ none) number is
    let score (i : Integer) : Fact := [.symbol number, .integer i]
    let F : FactBase := .ofList [score 3, score (-1), score 7, score 0, [.symbol max, .integer 7]]
    number ≠ .negation ∧ number ≠ .guard ∧ number ≠ max ∧ (⟨0⟩ : Variable) ≠ ⟨1⟩ ∧ is ≠ [] ∧
      Strategy.InRange Policy.choose .last ∧
      (∀ n, 1 ≤ n → (Simulation.mk d Policy.choose .last n false).outcome = .ok ⟨F, n, false⟩) ∧
      ∀ n, 2 ≤ n → (Simulation.mk d Policy.choose .last n true).outcome = .ok ⟨F, 1, true⟩ := by
  intro number max is d score F
  have hnot : number ≠ .negation := by decide
  have hif : number ≠ .guard := by decide
  have hne : number ≠ max := by decide
  have hxy : (⟨0⟩ : Variable) ≠ ⟨1⟩ := by decide
  have his : is ≠ [] := by decide
  obtain ⟨m, hm, hmax, _, G, _, hG, _, hruns⟩ := maximum_outcome hnot hif hne hxy his .initial none
  have hall : is.all (· ≤ 7) = true := by decide
  have hle : m ≤ 7 := of_decide_eq_true (List.all_eq_true.1 hall m hm)
  rw [Int64.le_antisymm hle (hmax 7 (by decide))] at hG
  have hGF : G = F := FactBase.ext_facts (hG.trans (by decide))
  rw [hGF] at hruns
  exact ⟨hnot, hif, hne, hxy, his, Policy.inRange_last, hruns _ _ _ Policy.inRange_last⟩

end Domain

end Maximum

end ForwardChaining
