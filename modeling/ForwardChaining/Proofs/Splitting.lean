import ForwardChaining.Proofs.Solving

/-!
# Splitting — solving in two parts

A conjunction may be solved up to any point, and its solutions extended by the conditions behind it.
Where the first part fails, the conjunction fails too, but maybe earlier: the solutions that the first
part found before its failure are extended already. `Search.explore` keeps these solutions, and under
it the law is one equation for both cases (`Search.explore_append`).
-/

namespace ForwardChaining

/-! ## 1. Searches up to their failure -/

/-- What a search has found by the time it ends, and the failure that ended it, if one did. -/
structure Yield where
  found : List Binding
  failure : Option InferenceError

namespace Yield

/-- The second search is begun only if the first does not fail. -/
def append (y z : Yield) : Yield :=
  match y.failure with
  | none => ⟨y.found ++ z.found, z.failure⟩
  | some _ => y

/-- One search after the other, from each of the bindings. -/
def each (f : Binding → Yield) : List Binding → Yield
  | [] => ⟨[], none⟩
  | b :: bs => (f b).append (each f bs)

/-- Searches on from what is found. The failure comes after that. -/
def andThen (y : Yield) (f : Binding → Yield) : Yield :=
  (each f y.found).append ⟨[], y.failure⟩

/-- The answer of the search, which forgets what a failing search has found. -/
def result (y : Yield) : Except InferenceError (List Binding) :=
  match y.failure with
  | none => .ok y.found
  | some e => .error e

variable {x y z : Yield} {e : InferenceError} {f g : Binding → Yield} {bs cs : List Binding}

theorem append_of_none (h : y.failure = none) (z : Yield) :
    y.append z = ⟨y.found ++ z.found, z.failure⟩ := by
  simp only [append, h]

theorem append_of_some (h : y.failure = some e) (z : Yield) : y.append z = y := by
  simp only [append, h]

theorem append_assoc : (x.append y).append z = x.append (y.append z) := by
  cases hx : x.failure with
  | some e => rw [append_of_some hx, append_of_some hx, append_of_some hx]
  | none =>
    rw [append_of_none hx, append_of_none hx]
    cases hy : y.failure with
    | some e => rw [append_of_some hy, append_of_some rfl, hy]
    | none => rw [append_of_none hy, append_of_none rfl, List.append_assoc]

theorem append_nil : y.append ⟨[], none⟩ = y := by
  cases h : y.failure with
  | some e => rw [append_of_some h]
  | none =>
    rw [append_of_none h, List.append_nil, ← h]

theorem each_append : each f (bs ++ cs) = (each f bs).append (each f cs) := by
  induction bs with
  | nil => rfl
  | cons b bs ih => rw [List.cons_append, each, each, ih, append_assoc]

theorem append_andThen : (x.append y).andThen f = (x.andThen f).append (y.andThen f) := by
  cases hx : x.failure with
  | some e =>
    -- the first search fails either way, and the second is not begun
    have hstop : append ⟨[], some e⟩ (y.andThen f) = ⟨[], some e⟩ := rfl
    rw [append_of_some hx, andThen, hx, append_assoc, hstop]
  | none =>
    rw [append_of_none hx, andThen, andThen, andThen, hx, append_nil, each_append, append_assoc]

theorem each_andThen : (each f bs).andThen g = each (fun b => (f b).andThen g) bs := by
  induction bs with
  | nil => rfl
  | cons b bs ih => rw [each, each, append_andThen, ih]

theorem result_append : (y.append z).result = do return (← y.result) ++ (← z.result) := by
  cases hy : y.failure with
  | some e =>
    rw [append_of_some hy, result, hy]
    rfl
  | none =>
    rw [append_of_none hy, result, result, result, hy]
    cases z.failure with
    | some e => rfl
    | none => rfl

theorem result_each : (each f bs).result = do
    return (← bs.mapM fun b => (f b).result).flatten := by
  induction bs with
  | nil => rfl
  | cons b bs ih =>
    rw [each, result_append, ih, List.mapM_cons]
    cases (f b).result with
    | error e => rfl
    | ok sols =>
      cases bs.mapM fun b => (f b).result with
      | error e => rfl
      | ok groups => rfl

theorem result_andThen : (y.andThen f).result = do
    let groups ← y.found.mapM fun b => (f b).result
    let _ ← y.result
    return groups.flatten := by
  rw [andThen, result_append, result_each]
  cases y.found.mapM fun b => (f b).result with
  | error e => rfl
  | ok groups =>
    cases hy : y.failure with
    | some e =>
      simp only [result, hy]
      rfl
    | none =>
      simp only [result, hy]
      show Except.ok (groups.flatten ++ []) = _
      rw [List.append_nil]
      rfl

end Yield

/-! ## 2. Conjunctions -/

namespace Search

/-- The conjunction of searches, with what it has found where it fails. -/
def explore : List Search → Binding → Yield
  | [], b => ⟨[b], none⟩
  | s :: rest, b =>
    match s b with
    | .ok mids => Yield.each (explore rest) mids
    | .error e => ⟨[], some e⟩

theorem result_explore (ss : List Search) (b : Binding) : (explore ss b).result = all ss b := by
  induction ss generalizing b with
  | nil => rfl
  | cons s ss ih =>
    rw [explore, all]
    cases s b with
    | error e => rfl
    | ok mids =>
      show (Yield.each (explore ss) mids).result = do return (← mids.mapM (all ss)).flatten
      rw [Yield.result_each, funext ih]

/-- What a conjunction finds, up to its failure, is what its second part finds from each of the
solutions of its first part, up to the failure of that. -/
theorem explore_append (ss ts : List Search) (b : Binding) :
    explore (ss ++ ts) b = (explore ss b).andThen (explore ts) := by
  induction ss generalizing b with
  | nil =>
    show explore ts b = ((explore ts b).append ⟨[], none⟩).append ⟨[], none⟩
    rw [Yield.append_nil, Yield.append_nil]
  | cons s ss ih =>
    rw [List.cons_append, explore, explore]
    cases s b with
    | error e => rfl
    | ok mids =>
      show Yield.each (explore (ss ++ ts)) mids = (Yield.each (explore ss) mids).andThen (explore ts)
      rw [Yield.each_andThen, funext ih]

end Search

/-! ## 3. Conditions -/

section Solve

variable {r : Registry} {F : FactBase} {ps qs : List Condition} {b : Binding}

/-- The solutions that conditions have up to their failure, and all of them where they do not fail. -/
def found (r : Registry) (F : FactBase) (ps : List Condition) (b : Binding) : List Binding :=
  (Search.explore (ps.map (Condition.search r F)) b).found

theorem result_explore_search (r : Registry) (F : FactBase) (cs : List Condition) (b : Binding) :
    (Search.explore (cs.map (Condition.search r F)) b).result = solve r F cs b :=
  Search.result_explore _ b

theorem found_of_solve_eq_ok {sols : List Binding} (h : solve r F ps b = .ok sols) :
    found r F ps b = sols := by
  rw [← result_explore_search, Yield.result] at h
  cases hf : (Search.explore (ps.map (Condition.search r F)) b).failure with
  | none =>
    rw [hf] at h
    exact Except.ok.inj h
  | some e =>
    rw [hf] at h
    cases h

theorem solve_append_eq : solve r F (ps ++ qs) b = do
    let groups ← (found r F ps b).mapM (solve r F qs)
    let _ ← solve r F ps b
    return groups.flatten := by
  rw [← result_explore_search, List.map_append, Search.explore_append, Yield.result_andThen,
    funext (result_explore_search r F qs), result_explore_search]
  rfl

/-- Solving splits at any point, under every registry. The solutions of the first conditions are
extended by the others one by one, up to the first failure. If the first conditions fail, so does the
whole: with the failure of the first solution, found before, that the others fail to extend, or else
with that of the first conditions. -/
theorem solve_append (r : Registry) (F : FactBase) (ps qs : List Condition) (b : Binding) :
    (∀ sols, solve r F ps b = .ok sols →
      solve r F (ps ++ qs) b = do return (← sols.mapM (solve r F qs)).flatten) ∧
    ∀ e, solve r F ps b = .error e →
      (∃ e', solve r F (ps ++ qs) b = .error e') ∧
        solve r F (ps ++ qs) b = (found r F ps b).mapM (solve r F qs) >>= fun _ => .error e := by
  refine ⟨fun sols h => ?_, fun e h => ?_⟩
  · rw [solve_append_eq, found_of_solve_eq_ok h, h]
    rfl
  · have heq : solve r F (ps ++ qs) b
        = (found r F ps b).mapM (solve r F qs) >>= fun _ => .error e := by
      rw [solve_append_eq, h]
      rfl
    refine ⟨?_, heq⟩
    rw [heq]
    cases (found r F ps b).mapM (solve r F qs) with
    | error e' => exact ⟨e', rfl⟩
    | ok groups => exact ⟨e, rfl⟩

/-- Under a form for membership, `(one-of ?x 1 2)` has two solutions and `(< ?x 2)` keeps one. The guard
of `(one-of ?x 1 0) (= (/ 4 ?x) 4)` fails with a division at its second value. At the first the
condition behind it is met, so the whole fails with the unbound `?y` there. -/
theorem solve_append_oneOf :
    let r : Registry := Registry.builtin.register ⟨2⟩ .oneOf
    let x : Term := .var ⟨0⟩
    let one : Term := .const (.integer 1)
    let four : Term := .const (.integer 4)
    let oneOf (a b : Atom) : Condition := .form ⟨2⟩ [.term x, .term (.const a), .term (.const b)]
    let small : Condition := .guard (.binary (.order .lt) (.leaf x) (.leaf (.const (.integer 2))))
    let divides : Condition := .guard (.binary (.equality .eq)
      (.binary (.arith .div) (.leaf four) (.leaf x)) (.leaf four))
    let needsY : Condition := .guard (.binary (.equality .eq) (.leaf (.var ⟨1⟩)) (.leaf one))
    let ps := [oneOf (.integer 1) (.integer 0), divides]
    let b (i : Integer) : Binding := ⟨(∅ : OrdinalMap Atom).insert 0 (.integer i)⟩
    solve r ∅ [oneOf (.integer 1) (.integer 2)] ∅ = .ok [b 1, b 2] ∧
      solve r ∅ ([oneOf (.integer 1) (.integer 2)] ++ [small]) ∅ = .ok [b 1] ∧
      solve r ∅ ps ∅ = .error (.guard (.arithmetic .div)) ∧
      solve r ∅ (ps ++ [needsY]) ∅ = .error (.unbound ⟨1⟩) := by
  intro r x one four oneOf small divides needsY ps b
  have hfirst : solve r ∅ [oneOf (.integer 1) (.integer 2)] ∅ = .ok [b 1, b 2] := by decide +kernel
  have hfails : solve r ∅ ps ∅ = .error (.guard (.arithmetic .div)) := by decide +kernel
  have ⟨hok, _⟩ := solve_append r ∅ [oneOf (.integer 1) (.integer 2)] [small] ∅
  have ⟨_, herror⟩ := solve_append r ∅ ps [needsY] ∅
  refine ⟨hfirst, ?_, hfails, ?_⟩
  · rw [hok _ hfirst]
    decide +kernel
  · rw [(herror _ hfails).2]
    decide +kernel

end Solve

end ForwardChaining
