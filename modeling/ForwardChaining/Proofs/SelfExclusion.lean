import ForwardChaining.Proofs.Distinctness
import ForwardChaining.Proofs.Mirroring
import ForwardChaining.Proofs.Productive

/-!
# Self-exclusion — the productive mode as a negation

A rule that excludes itself has one more condition: that its conclusions do not hold together. Such a
rule has the solutions of the original one that are productive (`Rule.solutions_selfExcluding`). So the
rules that exclude themselves have, without any filter, the candidates that the original rules have in
productive mode, and their runs go through the same facts (`Engine.selfExcluding_eq_productive`).
-/

namespace ForwardChaining

/-! ## 1. Sifting a list -/

theorem flatMap_ite_singleton {α : Type} (p : α → Bool) (l : List α) :
    l.flatMap (fun x => if p x then [x] else []) = l.filter p := by
  induction l with
  | nil => rfl
  | cons x l ih =>
    rw [List.flatMap_cons, ih, List.filter_cons]
    cases p x with
    | true => rfl
    | false => rfl

/-! ## 2. Conditions that ask about bound variables -/

section Solve

variable {F : FactBase} {b c : Binding}

/-- Conditions that cannot fail may be solved after the others: they sift and extend the solutions. -/
theorem solve_append_of_ok {ps qs : List Condition} {g : Binding → List Binding}
    (hqs : ∀ c, b.Extends (ps.flatMap Condition.binders) c → solve .builtin F qs c = .ok (g c)) :
    solve .builtin F (ps ++ qs) b = (solve .builtin F ps b).map (List.flatMap g) := by
  induction ps generalizing b with
  | nil =>
    rw [List.nil_append, hqs b (Binding.Extends.refl b)]
    show _ = Except.ok ([b].flatMap g)
    rw [List.flatMap_singleton]
  | cons p ps ih =>
    rw [List.cons_append, solve_cons, solve_cons]
    cases hmids : p.search .builtin F b with
    | error e => rfl
    | ok mids =>
      have hmap : mids.mapM (solve .builtin F (ps ++ qs))
          = (mids.mapM (solve .builtin F ps)).map (List.map (List.flatMap g)) := by
        refine mapM_eq_map_mapM fun m hm => ih fun c hc => hqs c ?_
        rw [List.flatMap_cons]
        exact (extends_of_mem_search hmids hm).trans hc
      show (mids.mapM (solve .builtin F (ps ++ qs)) >>= fun groups => pure groups.flatten) = _
      rw [hmap]
      show _ = Except.map (List.flatMap g)
        (mids.mapM (solve .builtin F ps) >>= fun groups => pure groups.flatten)
      cases mids.mapM (solve .builtin F ps) with
      | error e => rfl
      | ok groups =>
        show Except.ok (groups.map (List.flatMap g)).flatten = Except.ok (groups.flatten.flatMap g)
        rw [← List.flatMap_def, ← List.flatMap_id, List.flatMap_assoc]
        rfl

/-- Solving tuples with values for all variables finds that all are known facts, and the search for a
new fact among them finds none; or the other way around. -/
theorem exists_anyM_and_solve_tuples {ts : List Tuple} (hplain : ∀ t ∈ ts, t.IsPlain)
    (hground : ∀ t ∈ ts, ∃ f, t.ground c = .ok f) :
    ∃ p, (ts.anyM fun t => do let f ← t.ground c; return f ∉ F) = .ok p ∧
      solve .builtin F (ts.map .tuple) c = .ok (if p then [] else [c]) := by
  induction ts with
  | nil => exact ⟨false, rfl, rfl⟩
  | cons t ts ih =>
    have ⟨ht, hts⟩ := List.forall_mem_cons.1 hplain
    have ⟨⟨f, hf⟩, hrest⟩ := List.forall_mem_cons.1 hground
    have ⟨p, hp, hsolve⟩ := ih hts hrest
    have hsearch : (Condition.tuple t).search .builtin F c = .ok (if f ∈ F then [c] else []) :=
      (search_tuple_eq_ok_iff ht).2 (FactBase.query_of_ground hf)
    rw [List.anyM, List.map_cons, solve_cons, hsearch]
    -- the first tuple decides, or both go on with the others
    by_cases hmem : f ∈ F
    · refine ⟨p, ?_, ?_⟩
      · have hknown : (do let f ← t.ground c; return decide (f ∉ F)) = .ok false := by
          rw [hf]
          exact congrArg Except.ok (decide_eq_false (not_not.2 hmem))
        exact bind_eq_ok_iff.2 ⟨false, hknown, hp⟩
      · rw [if_pos hmem]
        show ([c].mapM (solve .builtin F (ts.map .tuple)) >>= fun groups => pure groups.flatten) = _
        rw [List.mapM_cons, hsolve]
        show Except.ok ((if p = true then [] else [c]) ++ []) = _
        rw [List.append_nil]
    · refine ⟨true, ?_, ?_⟩
      · have hnew : (do let f ← t.ground c; return decide (f ∉ F)) = .ok true := by
          rw [hf]
          exact congrArg Except.ok (decide_eq_true hmem)
        exact bind_eq_ok_iff.2 ⟨true, hnew, rfl⟩
      · rw [if_neg hmem]
        rfl

end Solve

/-! ## 3. Rules that exclude themselves -/

namespace Rule

variable {r : Rule} {F : FactBase}

/-- The rule with the further condition that the conclusions do not hold together. -/
def selfExcluding (r : Rule) : Rule where
  conditions := r.conditions ++ [.negation (r.conclusions.map .tuple)]
  conclusions := r.conclusions
  scope := r.scope

/-- Under a binding of its variables, a rule is productive exactly if its self-exclusion holds. -/
theorem exists_isProductive_and_solve_exclusion (h : ∀ v, Issue.conclusion v ∉ r.issues)
    (hplain : ∀ t ∈ r.conclusions, t.IsPlain) {c : Binding}
    (hc : Binding.Extends ∅ r.binders c) :
    ∃ p, r.isProductive c F = .ok p ∧
      solve .builtin F [.negation (r.conclusions.map .tuple)] c = .ok (if p then [c] else []) := by
  have hground : ∀ t ∈ r.conclusions, ∃ f, t.ground c = .ok f :=
    fun _ ht => exists_ground_of_no_conclusion_issue h hc ht
  have ⟨p, hp, hsolve⟩ := exists_anyM_and_solve_tuples (F := F) hplain hground
  refine ⟨p, hp, ?_⟩
  rw [solve_cons, Condition.search_negation, hsolve]
  cases p with
  | true => rfl
  | false => rfl

/-- A rule that excludes itself has the productive solutions of the original rule, and fails where that
does. -/
theorem solutions_selfExcluding (h : ∀ v, Issue.conclusion v ∉ r.issues)
    (hplain : ∀ t ∈ r.conclusions, t.IsPlain) :
    r.selfExcluding.solutions .builtin F
      = (r.solutions .builtin F).map (List.filter fun b => r.isProductive b F = .ok true) := by
  have happend : r.selfExcluding.solutions .builtin F = (r.solutions .builtin F).map
      (List.flatMap fun b => if r.isProductive b F = .ok true then [b] else []) := by
    refine solve_append_of_ok fun c hc => ?_
    have ⟨p, hp, hsolve⟩ := exists_isProductive_and_solve_exclusion (F := F) h hplain hc
    rw [hsolve, hp]
    cases p with
    | true => rfl
    | false => rfl
  rw [happend]
  congr 1
  funext sols
  rw [← flatMap_ite_singleton]
  simp only [decide_eq_true_eq]

end Rule

/-! ## 4. Candidates -/

namespace Candidate

/-- What identifies a candidate among those of an engine. -/
def key (c : Candidate) : Nat × Binding :=
  (c.ruleIndex, c.binding)

/-- The candidate for the rule that excludes itself. -/
def selfExcluding (c : Candidate) : Candidate :=
  { c with rule := c.rule.selfExcluding }

theorem key_selfExcluding (c : Candidate) : c.selfExcluding.key = c.key := rfl

theorem fire_selfExcluding (c : Candidate) (F : FactBase) : c.selfExcluding.fire F = c.fire F := rfl

end Candidate

namespace Engine

variable {rules : List Rule} {F : FactBase}

/-- The engine of the rules that exclude themselves, without the productive mode. -/
def selfExcluding (rules : List Rule) : Engine where
  rules := rules.map Rule.selfExcluding

theorem candidatesOf_selfExcluding {r : Rule} (h : ∀ v, Issue.conclusion v ∉ r.issues)
    (hplain : ∀ t ∈ r.conclusions, t.IsPlain) (index : Nat) :
    (selfExcluding rules).candidatesOf F r.selfExcluding index
      = ((productive rules).candidatesOf F r index).map (List.map Candidate.selfExcluding) := by
  have hsolutions := Rule.solutions_selfExcluding (F := F) h hplain
  cases hsols : r.solutions .builtin F with
  | error err =>
    rw [hsols] at hsolutions
    show (r.selfExcluding.solutions .builtin F >>= _) = Except.map _ (r.solutions .builtin F >>= _)
    rw [hsolutions, hsols]
    rfl
  | ok sols =>
    let p (b : Binding) : Bool := r.isProductive b F = .ok true
    rw [hsols] at hsolutions
    -- in productive mode the productive solutions are offered
    have hoffers : ∀ b ∈ sols, (productive rules).offers F r b = .ok (p b) := by
      intro b hb
      have ⟨q, hq, _⟩ := Rule.exists_isProductive_and_solve_exclusion (F := F) h hplain
        (extends_of_mem_solve hsols hb)
      rw [offers_eq_ok_iff rfl, hq]
      show _ = Except.ok (decide (r.isProductive b F = .ok true))
      rw [hq]
      cases q with
      | true => rfl
      | false => rfl
    -- those are all that the rule that excludes itself has, and it offers them all
    rw [candidatesOf_eq_ok hsols hoffers, candidatesOf_eq_ok_map rfl hsolutions]
    show _ = Except.ok (List.map Candidate.selfExcluding ((sols.filter p).map _))
    rw [List.map_map]
    rfl

/-- Rules that exclude themselves have the candidates that the original rules have in productive mode,
in the same order, and fail with the same errors. -/
theorem candidates_selfExcluding (h : ∀ r ∈ rules, ∀ v, Issue.conclusion v ∉ r.issues)
    (hplain : ∀ r ∈ rules, ∀ t ∈ r.conclusions, t.IsPlain) :
    (selfExcluding rules).candidates F
      = ((productive rules).candidates F).map (List.map Candidate.selfExcluding) := by
  refine candidates_eq_map (g := Rule.selfExcluding) rfl (fun _ => List.map_flatten) fun r hr i => ?_
  exact candidatesOf_selfExcluding (h r hr) (hplain r hr) i

end Engine

/-! ## 5. Runs -/

section Runs

variable {σ : Type}

/-- A strategy that looks only at the rule indices and the bindings of the candidates, and at its own
state. -/
def Strategy.ByKey (strategy : Strategy σ) : Prop :=
  ∀ cs cs' state, cs.map Candidate.key = cs'.map Candidate.key → strategy cs state = strategy cs' state

theorem map_eq_map_of_key {α : Type} {measure : Candidate → α} (g : Nat × Binding → α)
    (hg : ∀ c : Candidate, measure c = g c.key) {cs cs' : List Candidate}
    (h : cs.map Candidate.key = cs'.map Candidate.key) : cs.map measure = cs'.map measure := by
  have hmap : ∀ l : List Candidate, l.map measure = (l.map Candidate.key).map g := by
    intro l
    rw [List.map_map]
    exact List.map_congr_left fun c _ => hg c
  rw [hmap, hmap, h]

theorem Policy.byKey_choose : Strategy.ByKey Policy.choose := by
  intro cs cs' state h
  have hlength : cs.length = cs'.length := by
    have := congrArg List.length h
    rwa [List.length_map, List.length_map] at this
  have hindex : cs.map Candidate.ruleIndex = cs'.map Candidate.ruleIndex :=
    map_eq_map_of_key Prod.fst (fun _ => rfl) h
  have hsize : cs.map (·.binding.size) = cs'.map (·.binding.size) :=
    map_eq_map_of_key (·.2.size) (fun _ => rfl) h
  cases state with
  | first => rfl
  | constant index => rfl
  | script indices => cases indices with
    | nil => rfl
    | cons index rest => rfl
  | last => simp only [choose, hlength]
  | cycle numbers => cases numbers with
    | nil => rfl
    | cons n rest => simp only [choose, hlength]
  | congruential state => simp only [choose, hlength]
  | random generator => simp only [choose, hlength]
  | latestRule => simp only [choose, firstGreatest, hindex]
  | mostBound => simp only [choose, firstGreatest, hsize]

namespace Engine

variable {rules : List Rule}

/-- What the strategy chooses among the candidates of the rules that exclude themselves is, in the list
for the original rules, at the same place, and firing it does the same. -/
theorem step_selfExcluding (h : ∀ r ∈ rules, ∀ v, Issue.conclusion v ∉ r.issues)
    (hplain : ∀ r ∈ rules, ∀ t ∈ r.conclusions, t.IsPlain) {strategy : Strategy σ}
    (hkey : strategy.ByKey) (F : FactBase) (state : σ) :
    (selfExcluding rules).step strategy F state = (productive rules).step strategy F state := by
  have hcandidates := candidates_selfExcluding (F := F) h hplain
  cases hcs : (productive rules).candidates F with
  | error err =>
    rw [hcs] at hcandidates
    simp only [step, select, hcs, hcandidates, Except.map]
  | ok cs =>
    rw [hcs] at hcandidates
    cases cs with
    | nil => simp only [step, select, hcs, hcandidates, Except.map, List.map_nil]
    | cons c cs =>
      have hchoice : strategy ((c :: cs).map Candidate.selfExcluding) state = strategy (c :: cs) state := by
        apply hkey
        rw [List.map_map]
        exact List.map_congr_left fun c _ => Candidate.key_selfExcluding c
      have hget := List.getElem?_map (f := Candidate.selfExcluding) (l := c :: cs)
        (i := (strategy (c :: cs) state).1)
      rw [List.map_cons] at hchoice hget
      simp only [step, select, hcs, hcandidates, Except.map, List.map_cons, hchoice, hget]
      -- both lists have the index, or neither has
      cases (c :: cs)[(strategy (c :: cs) state).1]? with
      | none => simp only [Option.map_none, List.length_cons, List.length_map]
      | some chosen =>
        show (do let G ← chosen.selfExcluding.fire F; return some G, _) = _
        rw [Candidate.fire_selfExcluding]
        rfl

/-- Rules whose conclusions use bound variables only may exclude themselves instead of being filtered
in productive mode: over all facts there are the same candidates, in the same order, or the same error,
and under a strategy that cannot tell the rules apart the runs answer alike and go through the same
states, whichever calls move them. -/
theorem selfExcluding_eq_productive (hbound : ∀ r ∈ rules, ∀ v, Issue.conclusion v ∉ r.issues)
    (hplain : ∀ r ∈ rules, ∀ t ∈ r.conclusions, t.IsPlain) :
    (∀ F, ((selfExcluding rules).candidates F).map (List.map Candidate.key)
        = ((productive rules).candidates F).map (List.map Candidate.key)) ∧
      ∀ {σ : Type} (strategy : Strategy σ), strategy.ByKey →
        ∀ (state : σ) (F₀ : FactBase) (ms : List Run.Move),
          let q := ms.foldl Run.move ((selfExcluding rules).run strategy state F₀)
          let r := ms.foldl Run.move ((productive rules).run strategy state F₀)
          q.step.1 = r.step.1 ∧ q.next.1 = r.next.1 ∧
            q.facts = r.facts ∧ q.steps = r.steps ∧ q.phase = r.phase ∧ q.state = r.state := by
  constructor
  · intro F
    rw [candidates_selfExcluding hbound hplain]
    cases (productive rules).candidates F with
    | error err => rfl
    | ok cs =>
      show Except.ok ((cs.map Candidate.selfExcluding).map Candidate.key) = Except.ok (cs.map _)
      rw [List.map_map]
      exact congrArg Except.ok (List.map_congr_left fun c _ => Candidate.key_selfExcluding c)
  · intro σ strategy hkey state F₀ ms q r
    have hstart : ((productive rules).run strategy state F₀).Mirrors id
        ((selfExcluding rules).run strategy state F₀) :=
      ⟨fun F s => step_selfExcluding hbound hplain hkey F s, rfl, rfl, rfl, rfl⟩
    have hmirrors : r.Mirrors id q := hstart.moves ms
    exact ⟨hmirrors.step.1, hmirrors.next.1, hmirrors.facts_eq, hmirrors.steps_eq, hmirrors.phase_eq,
      hmirrors.state_eq⟩

end Engine

/-- Roads lead both ways: `(road ?x ?y)` and `(not (road ?y ?x))` give `(road ?y ?x)` and `(town ?x)`,
`(town ?x)` gives nothing, and `(road ?x ?y)` gives `(town ?y)`. -/
def roadRules (road town : Atom) : List Rule :=
  let x : Term := .var ⟨0⟩
  let y : Term := .var ⟨1⟩
  [{ conditions := [.tuple [.const road, x, y], .negation [.tuple [.const road, y, x]]]
     conclusions := [[.const road, y, x], [.const town, x]] },
   { conditions := [.tuple [.const town, x]] },
   { conditions := [.tuple [.const road, x, y]]
     conclusions := [[.const town, y]] }]

/-- On a road from `1` to `2`, both ways to keep the rules from repeating themselves offer the same two
candidates, and taking the last each time ends after two steps. -/
theorem selfExcluding_eq_productive_roads :
    let road : Atom := .symbol ⟨2⟩
    let town : Atom := .symbol ⟨3⟩
    let rules := roadRules road town
    let F₀ : FactBase := .ofList [[road, .integer 1, .integer 2]]
    let b : Binding := ⟨⟨[(0, .integer 1), (1, .integer 2)], by decide⟩⟩
    let calls : List Run.Move := [.next, .step, .next]
    let q := calls.foldl Run.move ((Engine.selfExcluding rules).run Policy.choose .last F₀)
    let r := calls.foldl Run.move ((Engine.productive rules).run Policy.choose .last F₀)
    (∀ r ∈ rules, ∀ v, Issue.conclusion v ∉ r.issues) ∧
      (∀ r ∈ rules, ∀ t ∈ r.conclusions, t.IsPlain) ∧ Strategy.ByKey Policy.choose ∧
      ((Engine.selfExcluding rules).candidates F₀).map (List.map Candidate.key) = .ok [(0, b), (2, b)] ∧
      r.step.1 = .ok .fixpoint ∧ q.step.1 = .ok .fixpoint ∧ q.steps = 2 ∧ q.facts = r.facts := by
  intro road town rules F₀ b calls q r
  have hissues : ∀ r ∈ rules, r.issues = [] := by decide
  have hbound : ∀ r ∈ rules, ∀ v, Issue.conclusion v ∉ r.issues := by
    intro r hr v
    rw [hissues r hr]
    exact List.not_mem_nil
  have hplain : ∀ r ∈ rules, ∀ t ∈ r.conclusions, t.IsPlain := by decide
  have ⟨hcandidates, hruns⟩ := Engine.selfExcluding_eq_productive hbound hplain
  have ⟨hstep, _, hfacts, hsteps, _⟩ := hruns Policy.choose Policy.byKey_choose .last F₀ calls
  have hkeys : ((Engine.productive rules).candidates F₀).map (List.map Candidate.key)
      = .ok [(0, b), (2, b)] := by decide
  have hfixpoint : r.step.1 = .ok .fixpoint := by decide
  have htwo : r.steps = 2 := by decide
  exact ⟨hbound, hplain, Policy.byKey_choose, (hcandidates F₀).trans hkeys, hfixpoint,
    hstep.trans hfixpoint, hsteps.trans htwo, hfacts⟩

end Runs

end ForwardChaining
