import ForwardChaining.Domain.Simulation
import ForwardChaining.Proofs.Renaming
import Mathlib.Logic.Equiv.Basic

/-!
# Ordinals — a run does not depend on them

The symbols of a domain are renamed throughout, and the variables of each rule on their own. Under the
built-in forms the renamed rules have the renamed candidates, in the same order
(`Engine.candidates_carried`). A strategy that only counts the candidates chooses the same one, so a step
of the renamed run does what the step of the run does (`Run.step_rename`), and the runs stay together
(`Domain.run_rename`). Only an error that mentions a variable has to be read as the rule that it comes from
has been renamed.
-/

namespace ForwardChaining

/-! ## 1. Renaming rule by rule -/

section Definitions

variable (ρ : SymbolRenaming) (π : Nat → Variable ↪ Variable)

def Candidate.rename (c : Candidate) : Candidate where
  ruleIndex := c.ruleIndex
  rule := c.rule.rename ρ (π c.ruleIndex)
  binding := c.binding.rename ρ (π c.ruleIndex)

/-- Renames the variables of each rule by a renaming of its own. -/
def Engine.rename (e : Engine) : Engine :=
  { e with rules := e.rules.mapIdx fun i r => r.rename ρ (π i) }

/-- Renames the rules and the initial facts. The names of the symbols are for reading and printing. -/
def Domain.rename (d : Domain) : Domain :=
  { d with
    rules := d.rules.mapIdx fun i r => r.rename ρ (π i)
    facts := d.facts.map (Fact.rename ρ) }

def Run.rename {σ : Type} (r : Run σ) : Run σ :=
  { r with engine := r.engine.rename ρ π, facts := r.facts.rename ρ }

end Definitions

/-! ## 2. Fact bases -/

namespace FactBase

variable {ρ : SymbolRenaming} {F : FactBase} {f : Fact}

theorem mem_rename : f.rename ρ ∈ F.rename ρ ↔ f ∈ F :=
  List.mem_map_of_injective (Fact.rename_injective ρ)

theorem insert_rename (F : FactBase) (f : Fact) :
    (F.rename ρ).insert (f.rename ρ) = (F.insert f).rename ρ := by
  by_cases hf : f ∈ F
  · rw [insert_of_mem hf, insert_of_mem (mem_rename.2 hf)]
  · apply ext_facts
    show _ = (F.insert f).facts.map (Fact.rename ρ)
    rw [facts_insert_of_not_mem hf, facts_insert_of_not_mem (mt mem_rename.1 hf), List.map_append]
    rfl

theorem union_rename (F : FactBase) (fs : List Fact) :
    (F.rename ρ).union (fs.map (Fact.rename ρ)) = (F.union fs).rename ρ := by
  induction fs generalizing F with
  | nil => rfl
  | cons f fs ih =>
    show ((F.rename ρ).insert (f.rename ρ)).union (fs.map (Fact.rename ρ)) = _
    rw [insert_rename]
    exact ih (F.insert f)

end FactBase

/-! ## 3. One rule -/

section Rules

variable {ρ : SymbolRenaming} {π : Variable ↪ Variable}

theorem Rule.apply_rename (r : Rule) (b : Binding) (F : FactBase) :
    (r.rename ρ π).apply (b.rename ρ π) (F.rename ρ)
      = carry (UnboundVariable.rename π) (FactBase.rename ρ) (r.apply b F) := by
  refine carry_bind (carry_mapM (fun t => Tuple.ground_rename t b) r.conclusions) fun fs => ?_
  exact congrArg Except.ok (F.union_rename fs)

theorem Rule.isProductive_rename (r : Rule) (b : Binding) (F : FactBase) :
    (r.rename ρ π).isProductive (b.rename ρ π) (F.rename ρ)
      = carry (UnboundVariable.rename π) id (r.isProductive b F) := by
  -- a renamed fact is new exactly if the fact is
  have hnew : ∀ t : Tuple,
      (do let f ← (t.rename ρ π).ground (b.rename ρ π); return decide (f ∉ F.rename ρ))
        = carry (UnboundVariable.rename π) id (do let f ← t.ground b; return decide (f ∉ F)) :=
    fun t => carry_bind (t.ground_rename b) fun f =>
      congrArg Except.ok (decide_eq_decide.2 (not_congr FactBase.mem_rename))
  exact carry_anyM hnew r.conclusions

end Rules

section Candidates

variable {ρ : SymbolRenaming} {π : Nat → Variable ↪ Variable} {e : Engine} {F : FactBase}

theorem Candidate.fire_rename (c : Candidate) (F : FactBase) :
    (c.rename ρ π).fire (F.rename ρ)
      = carry (InferenceError.rename ρ (π c.ruleIndex)) (FactBase.rename ρ) (c.fire F) :=
  carry_mapError (c.rule.apply_rename c.binding F) fun _ => rfl

namespace Engine

theorem offers_rename (e : Engine) (F : FactBase) (r : Rule) (b : Binding) (i : Nat) :
    (e.rename ρ π).offers (F.rename ρ) (r.rename ρ (π i)) (b.rename ρ (π i))
      = carry (InferenceError.rename ρ (π i)) id (e.offers F r b) :=
  carry_ite Iff.rfl (carry_mapError (r.isProductive_rename b F) fun _ => rfl) rfl

theorem candidatesOf_rename (hforms : e.forms = .builtin) (F : FactBase) (r : Rule) (i : Nat) :
    (e.rename ρ π).candidatesOf (F.rename ρ) (r.rename ρ (π i)) i
      = carry (InferenceError.rename ρ (π i)) (List.map (Candidate.rename ρ π))
          (e.candidatesOf F r i) := by
  have hsolutions : (r.rename ρ (π i)).solutions (e.rename ρ π).forms (F.rename ρ)
      = carry (InferenceError.rename ρ (π i)) (List.map (Binding.rename ρ (π i)))
          (r.solutions e.forms F) := by
    show (r.rename ρ (π i)).solutions e.forms (F.rename ρ) = _
    rw [hforms]
    exact r.solutions_rename F
  refine carry_bind hsolutions fun sols => carry_filterMapM (fun b => ?_) sols
  refine carry_bind (e.offers_rename F r b i) fun p => ?_
  cases p with
  | true => rfl
  | false => rfl

/-! ## 4. All rules -/

theorem zipIdx_rules_rename (e : Engine) :
    (e.rename ρ π).rules.zipIdx = e.rules.zipIdx.map fun p => (p.1.rename ρ (π p.2), p.2) := by
  show (e.rules.mapIdx fun i r => r.rename ρ (π i)).zipIdx = _
  apply List.ext_getElem?
  intro i
  rw [List.getElem?_zipIdx, List.getElem?_mapIdx, List.getElem?_map, List.getElem?_zipIdx]
  cases e.rules[i]? with
  | none => rfl
  | some r => simp

/-- Whether the rule at an index is the first whose candidates cannot be enumerated, and with which
error. -/
def FirstFailure (e : Engine) (F : FactBase) (i : Nat) (err : InferenceError) : Prop :=
  (∃ r, e.rules[i]? = some r ∧ e.candidatesOf F r i = .error err) ∧
    ∀ j < i, ∀ r, e.rules[j]? = some r → ∃ cs, e.candidatesOf F r j = .ok cs

theorem candidates_eq_error_iff {err : InferenceError} :
    e.candidates F = .error err ↔ ∃ i, e.FirstFailure F i err := by
  have hzip : ∀ i, e.rules.zipIdx[i]? = e.rules[i]?.map fun r => (r, i) := fun i => by
    rw [List.getElem?_zipIdx, Nat.zero_add]
  have hrules : e.candidates F = .error err ↔
      (e.rules.zipIdx.mapM fun p => e.candidatesOf F p.1 p.2) = .error err := by
    refine ⟨fun h => ?_, fun h => bind_eq_error_iff.2 (Or.inl h)⟩
    rcases bind_eq_error_iff.1 h with h | ⟨_, _, h⟩
    · exact h
    · cases h
  rw [hrules, mapM_eq_error_iff_getElem?]
  simp only [hzip, Option.map_eq_some_iff, exists_exists_and_eq_and, forall_exists_index, and_imp,
    forall_apply_eq_imp_iff₂, FirstFailure]

theorem candidates_rename (hforms : e.forms = .builtin) {cs : List Candidate}
    (h : e.candidates F = .ok cs) :
    (e.rename ρ π).candidates (F.rename ρ) = .ok (cs.map (Candidate.rename ρ π)) := by
  have ⟨perRule, hperRule, hcs⟩ := bind_eq_ok_iff.1 h
  cases hcs
  refine bind_eq_ok_iff.2 ⟨perRule.map (List.map (Candidate.rename ρ π)), ?_, ?_⟩
  · rw [zipIdx_rules_rename, mapM_eq_ok_iff, List.forall₂_map_left_iff, List.forall₂_map_right_iff]
    refine (mapM_eq_ok_iff.1 hperRule).imp fun p cs hp => ?_
    exact (candidatesOf_rename hforms F p.1 p.2).trans (congrArg (carry _ _) hp)
  · exact congrArg Except.ok List.map_flatten.symm

theorem FirstFailure.rename (hforms : e.forms = .builtin) {i : Nat} {err : InferenceError}
    (h : e.FirstFailure F i err) :
    (e.rename ρ π).FirstFailure (F.rename ρ) i (err.rename ρ (π i)) := by
  have hrule : ∀ j, (e.rename ρ π).rules[j]? = e.rules[j]?.map (Rule.rename ρ (π j)) :=
    fun j => List.getElem?_mapIdx
  obtain ⟨⟨r, hr, herr⟩, hbefore⟩ := h
  refine ⟨⟨r.rename ρ (π i), ?_, ?_⟩, fun j hj r' hr' => ?_⟩
  · rw [hrule, hr]
    rfl
  · rw [candidatesOf_rename hforms, herr]
    rfl
  · rw [hrule] at hr'
    obtain ⟨r, hr, rfl⟩ := Option.map_eq_some_iff.1 hr'
    have ⟨cs, hcs⟩ := hbefore j hj r hr
    rw [candidatesOf_rename hforms, hcs]
    exact ⟨_, rfl⟩

end Engine

/-! ## 5. Steps -/

/-- Both computations fail, with related errors, or the result of the one is carried over to the other. -/
inductive Carried {ε ε' α α' : Type} (E : ε → ε' → Prop) (g : α → α') :
    Except ε α → Except ε' α' → Prop
  | error {err : ε} {err' : ε'} (h : E err err') : Carried E g (.error err) (.error err')
  | ok (a : α) : Carried E g (.ok a) (.ok (g a))

/-- Whether the choices of a strategy depend on its state and on the number of candidates only. -/
def Strategy.ByCount {σ : Type} (strategy : Strategy σ) : Prop :=
  ∀ cs cs' state, cs.length = cs'.length → strategy cs state = strategy cs' state

namespace Engine

variable {σ : Type} {strategy : Strategy σ}

/-- The renamed rules have the renamed candidates, in the same order. The first rule that fails is the
first that does, with its error renamed. -/
theorem candidates_carried (hforms : e.forms = .builtin) (F : FactBase) :
    Carried (fun err err' => ∃ i, e.FirstFailure F i err ∧ err' = err.rename ρ (π i))
      (List.map (Candidate.rename ρ π)) (e.candidates F)
      ((e.rename ρ π).candidates (F.rename ρ)) := by
  cases hcs : e.candidates F with
  | error err =>
    have ⟨i, hi⟩ := candidates_eq_error_iff.1 hcs
    rw [candidates_eq_error_iff.2 ⟨i, hi.rename hforms⟩]
    exact .error ⟨i, hi, rfl⟩
  | ok cs =>
    rw [candidates_rename hforms hcs]
    exact .ok cs

/-- A selection among the candidates of an engine, and the one among those of the renamed engine. -/
inductive SelectionRenamed (ρ : SymbolRenaming) (π : Nat → Variable ↪ Variable) (e : Engine)
    (F : FactBase) : Selection → Selection → Prop
  | failed {i : Nat} {err : InferenceError} (h : e.FirstFailure F i err) :
      SelectionRenamed ρ π e F (.failed err) (.failed (err.rename ρ (π i)))
  | noCandidates : SelectionRenamed ρ π e F .noCandidates .noCandidates
  | invalid (index count : Nat) :
      SelectionRenamed ρ π e F (.invalid index count) (.invalid index count)
  | chosen (index count : Nat) (c : Candidate) :
      SelectionRenamed ρ π e F (.chosen index count c) (.chosen index count (c.rename ρ π))

theorem select_of_error {state : σ} {err : InferenceError} (h : e.candidates F = .error err) :
    e.select strategy F state = (.failed err, state) := by
  unfold select
  rw [h]

theorem select_of_nil {state : σ} (h : e.candidates F = .ok []) :
    e.select strategy F state = (.noCandidates, state) := by
  unfold select
  rw [h]

theorem select_of_none {state next : σ} {index : Nat} {cs : List Candidate}
    (h : e.candidates F = .ok cs) (hne : cs ≠ []) (hchoice : strategy cs state = (index, next))
    (hi : cs[index]? = none) :
    e.select strategy F state = (.invalid index cs.length, next) := by
  cases cs with
  | nil => exact absurd rfl hne
  | cons c cs => simp only [select, h, hchoice, hi]

theorem select_of_some {state next : σ} {index : Nat} {cs : List Candidate} {c : Candidate}
    (h : e.candidates F = .ok cs) (hchoice : strategy cs state = (index, next))
    (hi : cs[index]? = some c) :
    e.select strategy F state = (.chosen index cs.length c, next) := by
  cases cs with
  | nil => cases hi
  | cons d ds => simp only [select, h, hchoice, hi]

/-- A strategy that counts the candidates chooses among the renamed ones at the same position. -/
theorem select_rename (hforms : e.forms = .builtin) (hcount : strategy.ByCount) (F : FactBase)
    (state : σ) :
    SelectionRenamed ρ π e F (e.select strategy F state).1
        ((e.rename ρ π).select strategy (F.rename ρ) state).1 ∧
      ((e.rename ρ π).select strategy (F.rename ρ) state).2 = (e.select strategy F state).2 := by
  cases hcs : e.candidates F with
  | error err =>
    have ⟨i, hi⟩ := candidates_eq_error_iff.1 hcs
    have hcs' := candidates_eq_error_iff.2 ⟨i, hi.rename (ρ := ρ) (π := π) hforms⟩
    rw [select_of_error hcs, select_of_error hcs']
    exact ⟨.failed hi, rfl⟩
  | ok cs =>
    have hcs' := candidates_rename (ρ := ρ) (π := π) hforms hcs
    by_cases hne : cs = []
    · subst hne
      rw [select_of_nil hcs, select_of_nil hcs']
      exact ⟨.noCandidates, rfl⟩
    · have hne' : cs.map (Candidate.rename ρ π) ≠ [] := mt List.map_eq_nil_iff.1 hne
      obtain ⟨index, next, hchoice⟩ : ∃ index next, strategy cs state = (index, next) := ⟨_, _, rfl⟩
      have hlength : (cs.map (Candidate.rename ρ π)).length = cs.length := List.length_map _
      have hchoice' := (hcount _ _ state hlength).trans hchoice
      have hget : (cs.map (Candidate.rename ρ π))[index]? = cs[index]?.map (Candidate.rename ρ π) :=
        List.getElem?_map
      cases hi : cs[index]? with
      | none =>
        rw [hi] at hget
        rw [select_of_none hcs hne hchoice hi, select_of_none hcs' hne' hchoice' hget, hlength]
        exact ⟨.invalid index cs.length, rfl⟩
      | some c =>
        rw [hi] at hget
        rw [select_of_some hcs hchoice hi, select_of_some hcs' hchoice' hget, hlength]
        exact ⟨.chosen index cs.length c, rfl⟩

/-- What becomes of the error of a step. It is renamed as the rule that it comes from: the first that
fails, or the one that was chosen. A choice that is not there stays as it is. -/
inductive ErrorRenamed (ρ : SymbolRenaming) (π : Nat → Variable ↪ Variable) (e : Engine)
    (strategy : Strategy σ) (F : FactBase) (state : σ) : InferenceError → InferenceError → Prop
  | enumerating {i : Nat} {err : InferenceError} (h : e.FirstFailure F i err) :
      ErrorRenamed ρ π e strategy F state err (err.rename ρ (π i))
  | choosing {index count : Nat} (h : (e.select strategy F state).1 = .invalid index count) :
      ErrorRenamed ρ π e strategy F state (.invalidChoice index count) (.invalidChoice index count)
  | firing {index count : Nat} {c : Candidate} {err : InferenceError}
      (h : (e.select strategy F state).1 = .chosen index count c) (hfire : c.fire F = .error err) :
      ErrorRenamed ρ π e strategy F state err (err.rename ρ (π c.ruleIndex))

theorem step_rename (hforms : e.forms = .builtin) (hcount : strategy.ByCount) (F : FactBase)
    (state : σ) :
    Carried (ErrorRenamed ρ π e strategy F state) (Option.map (FactBase.rename ρ))
        (e.step strategy F state).1 ((e.rename ρ π).step strategy (F.rename ρ) state).1 ∧
      ((e.rename ρ π).step strategy (F.rename ρ) state).2 = (e.step strategy F state).2 := by
  have ⟨hselect, hnext⟩ := select_rename (ρ := ρ) (π := π) hforms hcount F state
  refine ⟨?_, hnext⟩
  show Carried _ _ ((e.select strategy F state).1.fire F)
    (((e.rename ρ π).select strategy (F.rename ρ) state).1.fire (F.rename ρ))
  generalize hs : (e.select strategy F state).1 = s at hselect
  generalize ((e.rename ρ π).select strategy (F.rename ρ) state).1 = s' at hselect
  cases hselect with
  | failed h => exact .error (.enumerating h)
  | noCandidates => exact .ok none
  | invalid index count => exact .error (.choosing hs)
  | chosen index count c =>
    show Carried _ _ (do return some (← c.fire F)) (do return some (← (c.rename ρ π).fire (F.rename ρ)))
    rw [c.fire_rename]
    cases hfire : c.fire F with
    | error err => exact .error (.firing hs hfire)
    | ok G => exact .ok (some G)

end Engine

end Candidates

/-! ## 6. Runs -/

namespace Run

variable {σ : Type} {ρ : SymbolRenaming} {π : Nat → Variable ↪ Variable} {r : Run σ}

/-- What becomes of the error of the next step of a run. -/
abbrev ErrorRenamed (ρ : SymbolRenaming) (π : Nat → Variable ↪ Variable) (r : Run σ) :
    InferenceError → InferenceError → Prop :=
  Engine.ErrorRenamed ρ π r.engine r.strategy r.facts r.state

theorem step_rename (hforms : r.engine.forms = .builtin) (hcount : r.strategy.ByCount) :
    Carried (r.ErrorRenamed ρ π) id r.step.1 (r.rename ρ π).step.1 ∧
      (r.rename ρ π).step.2 = r.step.2.rename ρ π := by
  by_cases hphase : r.phase = .finished
  · have hphase' : (r.rename ρ π).phase = .finished := hphase
    rw [step_of_finished hphase, step_of_finished hphase']
    exact ⟨.ok Progress.done, rfl⟩
  · have hphase' : (r.rename ρ π).phase ≠ .finished := hphase
    have ⟨hstep, hnext⟩ := Engine.step_rename (ρ := ρ) (π := π) hforms hcount r.facts r.state
    rw [step, step, if_neg hphase, if_neg hphase']
    -- both runs take over what their engines have done
    generalize hx : r.engine.step r.strategy r.facts r.state = x at hstep hnext
    generalize hy : (r.rename ρ π).engine.step (r.rename ρ π).strategy (r.rename ρ π).facts
      (r.rename ρ π).state = y
    obtain ⟨x, next⟩ := x
    obtain ⟨y, next'⟩ := y
    have hy' : (r.engine.rename ρ π).step r.strategy (r.facts.rename ρ) r.state = (y, next') := hy
    rw [hy'] at hstep hnext
    cases hnext
    cases hstep with
    | error h => exact ⟨.error h, rfl⟩
    | ok o =>
      cases o with
      | none => exact ⟨.ok Progress.fixpoint, rfl⟩
      | some G => exact ⟨.ok Progress.derived, rfl⟩

theorem step_after_rename (hforms : r.engine.forms = .builtin) (hcount : r.strategy.ByCount) (n : Nat) :
    Carried ((r.after n).ErrorRenamed ρ π) id (r.after n).step.1 ((r.after n).rename ρ π).step.1 ∧
      ((r.after n).rename ρ π).step.2 = (r.after n).step.2.rename ρ π := by
  refine step_rename ?_ ?_
  · rw [engine_after, hforms]
  · rw [strategy_after]
    exact hcount

theorem after_rename (hforms : r.engine.forms = .builtin) (hcount : r.strategy.ByCount) (n : Nat) :
    (r.rename ρ π).after n = (r.after n).rename ρ π := by
  induction n with
  | zero => rfl
  | succ n ih =>
    rw [after_succ, ih, after_succ]
    exact (step_after_rename hforms hcount n).2

end Run

theorem Domain.initialFacts_rename (ρ : SymbolRenaming) (π : Nat → Variable ↪ Variable) (d : Domain) :
    (d.rename ρ π).initialFacts = d.initialFacts.rename ρ :=
  FactBase.union_rename ∅ d.facts

/-- A run under the built-in forms does not depend on the ordinals of symbols and variables, if its
strategy only counts the candidates. Where the symbols of a domain are renamed throughout and the
variables of each rule on their own, the renamed run stands after every step where the run does, at the
renamed facts in the same order. It has the renamed candidates in the same order, and a step does the same
or fails with the renamed error. -/
theorem Domain.run_rename (ρ : SymbolRenaming) (π : Nat → Variable ↪ Variable) {d : Domain}
    (hforms : d.forms = .builtin) {σ : Type} {strategy : Strategy σ} (hcount : strategy.ByCount)
    (state : σ) (productiveOnly : Bool) (k : Nat) :
    let e := d.engine productiveOnly
    let e' := (d.rename ρ π).engine productiveOnly
    let r := e.run strategy state d.initialFacts
    let r' := e'.run strategy state (d.rename ρ π).initialFacts
    let F := (r.after k).facts
    let F' := (r'.after k).facts
    r'.after k = (r.after k).rename ρ π ∧ F' = F.rename ρ ∧
      Carried (fun err err' => ∃ i, e.FirstFailure F i err ∧ err' = err.rename ρ (π i))
        (List.map (Candidate.rename ρ π)) (e.candidates F) (e'.candidates F') ∧
      Carried ((r.after k).ErrorRenamed ρ π) id (r.answer k) (r'.answer k) := by
  intro e e' r r' F F'
  have hr' : r' = r.rename ρ π := congrArg (e'.run strategy state) (d.initialFacts_rename ρ π)
  have hafter : r'.after k = (r.after k).rename ρ π := by
    rw [hr']
    exact Run.after_rename hforms hcount k
  have hfacts : F' = F.rename ρ := congrArg Run.facts hafter
  refine ⟨hafter, hfacts, ?_, ?_⟩
  · rw [hfacts]
    exact Engine.candidates_carried hforms F
  · show Carried _ _ (r.after k).step.1 (r'.after k).step.1
    rw [hafter]
    exact (Run.step_after_rename hforms hcount k).1

/-- Chooses the last candidate, and counts the choices. -/
def Strategy.lastOf : Strategy Nat :=
  fun cs made => (cs.length - 1, made + 1)

theorem Strategy.byCount_lastOf : Strategy.lastOf.ByCount := by
  intro cs cs' made h
  show (cs.length - 1, made + 1) = (cs'.length - 1, made + 1)
  rw [h]

/-- Small numbers are seen: `(number ?x)`, `(not (seen ?x))` and `(if (< ?x 2))` give `(seen ?x)`. The
second rule uses a variable that has no value: `(seen ?y)` gives `(pair ?y ?z)`. -/
def Domain.sight (number seen pair : Atom) : Domain :=
  let x : Term := .var ⟨0⟩
  { rules :=
      [{ conditions :=
           [.tuple [.const number, x], .negation [.tuple [.const seen, x]],
            .guard (.binary (.order .lt) (.leaf x) (.leaf (.const (.integer 2))))]
         conclusions := [[.const seen, x]] },
       { conditions := [.tuple [.const seen, x]]
         conclusions := [[.const pair, x, .var ⟨1⟩]] }]
    facts := [[number, .integer 1], [number, .integer 2]] }

/-- The order of two symbols is reversed, and in each rule that of two variables. The second step fails,
and the error mentions the variable as the second rule has been renamed. -/
theorem run_rename_sight :
    let ρ : SymbolRenaming := ⟨(Equiv.swap ⟨2⟩ ⟨4⟩).toEmbedding, by decide, by decide⟩
    let π : Nat → Variable ↪ Variable := fun i => (Equiv.swap ⟨i⟩ ⟨2⟩).toEmbedding
    let number : Atom := .symbol ⟨2⟩
    let seen : Atom := .symbol ⟨3⟩
    let pair : Atom := .symbol ⟨4⟩
    let d := Domain.sight number seen pair
    let r := (d.engine false).run .lastOf 0 d.initialFacts
    let d' := d.rename ρ π
    let r' := (d'.engine false).run .lastOf 0 d'.initialFacts
    d.forms = .builtin ∧ Strategy.lastOf.ByCount ∧
      (r.after 1).facts.facts
        = [[number, .integer 1], [number, .integer 2], [seen, .integer 1]] ∧
      (r'.after 1).facts.facts
        = [[pair, .integer 1], [pair, .integer 2], [seen, .integer 1]] ∧
      (r'.after 1).facts = (r.after 1).facts.rename ρ ∧
      r.answer 1 = .error (.unbound ⟨1⟩) ∧ r'.answer 1 = .error (.unbound ⟨2⟩) ∧
      (r.after 1).ErrorRenamed ρ π (.unbound ⟨1⟩) (.unbound ⟨2⟩) := by
  intro ρ π number seen pair d r d' r'
  have hfacts : (r.after 1).facts.facts
      = [[number, .integer 1], [number, .integer 2], [seen, .integer 1]] := by rfl
  have hfacts' : (r'.after 1).facts.facts
      = [[pair, .integer 1], [pair, .integer 2], [seen, .integer 1]] := by rfl
  have herror : r.answer 1 = .error (.unbound ⟨1⟩) := by rfl
  have herror' : r'.answer 1 = .error (.unbound ⟨2⟩) := by rfl
  have ⟨_, hrenamed, _, hanswer⟩ := Domain.run_rename ρ π (d := d) rfl Strategy.byCount_lastOf 0 false 1
  have hanswer : Carried ((r.after 1).ErrorRenamed ρ π) id (r.answer 1) (r'.answer 1) := hanswer
  rw [herror, herror'] at hanswer
  cases hanswer with
  | error h =>
    exact ⟨rfl, Strategy.byCount_lastOf, hfacts, hfacts', hrenamed, herror, herror', h⟩

end ForwardChaining
