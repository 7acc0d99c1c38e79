import ForwardChaining.Domain.Simulation
import ForwardChaining.Proofs.Filtering
import ForwardChaining.Proofs.Solving
import Mathlib.Logic.Relation

/-!
# Reachability — the productive mode loses no state

The fact bases that a run can come to are those that lead on from each other by firing candidates
(`Engine.exists_reaches_iff`). In productive mode there are fewer candidates, but a candidate that is
passed over leads back to where it is fired. So where the filter never fails, the same fact bases are
reached in both modes (`Domain.productive_reaches_iff`): a run in productive mode is a run of the other
mode that leaves out the steps without effect.
-/

namespace ForwardChaining

open Relation (ReflTransGen)

variable {F F₀ G : FactBase} {σ : Type}

/-! ## 1. Choices -/

namespace Engine

variable {e : Engine}

/-- Whether firing some candidate over `F` gives `G`. -/
def LeadsTo (e : Engine) (F G : FactBase) : Prop :=
  ∃ cs, e.candidates F = .ok cs ∧ ∃ c ∈ cs, c.fire F = .ok G

/-- Whether the engine comes from `F₀` to `F` when the candidates are chosen by the given indices, one
for each step. An index that is out of range derives nothing. -/
def Reaches (e : Engine) (F₀ : FactBase) (choices : List Nat) (F : FactBase) : Prop :=
  let r := e.run Policy.choose (.script choices) F₀
  (∀ k < choices.length, r.answer k = .ok .derived) ∧ (r.after choices.length).facts = F

end Engine

theorem Run.leadsTo_after {r : Run σ} {n : Nat} (h : ∀ k < n, r.answer k = .ok .derived) :
    ReflTransGen r.engine.LeadsTo r.facts (r.after n).facts := by
  induction n with
  | zero => exact ReflTransGen.refl
  | succ n ih =>
    have ⟨c, hc, hfire⟩ := exists_fires_of_derived (h n (Nat.lt_succ_self n))
    have ⟨cs, hcs, hmem⟩ := hc.mem_candidates
    exact (ih fun k hk => h k (Nat.lt_succ_of_lt hk)).tail ⟨cs, hcs, c, hmem, hfire⟩

/-- The first index of a script is used up by the first step. -/
theorem Run.step_script {r : Run Policy} {i : Nat} {rest : List Nat} {cs : List Candidate}
    {c : Candidate} (hstrategy : r.strategy = Policy.choose) (hstate : r.state = .script (i :: rest))
    (hphase : r.phase ≠ .finished) (hcs : r.engine.candidates r.facts = .ok cs) (hi : cs[i]? = some c)
    (hfire : c.fire r.facts = .ok G) :
    r.step = (.ok .derived,
      { r with facts := G, state := .script rest, steps := r.steps + 1, phase := .running }) := by
  have hanswer : r.strategy cs r.state = (i, .script rest) := by
    rw [hstrategy, hstate]
    rfl
  have hstep := step_of_getElem? hphase hcs (by rw [hanswer]; exact hi) hfire
  rw [hanswer] at hstep
  exact hstep

/-- Where candidates lead, a script leads too, from any run that has not ended. -/
theorem Engine.exists_script {e : Engine} (h : ReflTransGen e.LeadsTo F G) :
    ∃ choices : List Nat, ∀ r : Run Policy, r.engine = e → r.strategy = Policy.choose →
      r.state = .script choices → r.facts = F → r.phase ≠ .finished →
      (∀ k < choices.length, r.answer k = .ok .derived) ∧ (r.after choices.length).facts = G := by
  induction h using ReflTransGen.head_induction_on with
  | refl => exact ⟨[], fun r _ _ _ hF _ => ⟨fun k hk => absurd hk (Nat.not_lt_zero k), hF⟩⟩
  | head hlead _ ih =>
    obtain ⟨cs, hcs, c, hc, hfire⟩ := hlead
    obtain ⟨i, hi⟩ := List.getElem?_of_mem hc
    obtain ⟨rest, hrest⟩ := ih
    refine ⟨i :: rest, ?_⟩
    rintro r rfl hstrategy hstate rfl hphase
    -- after the first step the run is as the induction hypothesis wants it
    have hstep := Run.step_script hstrategy hstate hphase hcs hi hfire
    have hsecond := hrest r.step.2 (Run.engine_step r) ((Run.strategy_step r).trans hstrategy)
      (by rw [hstep]) (by rw [hstep]) (by rw [hstep]; exact fun hp => (nomatch hp))
    refine ⟨fun k hk => ?_, ?_⟩
    · cases k with
      | zero => exact congrArg Prod.fst hstep
      | succ k =>
        rw [← Run.answer_step]
        exact hsecond.1 k (Nat.lt_of_succ_lt_succ hk)
    · rw [List.length_cons, ← Run.after_step]
      exact hsecond.2

theorem Engine.exists_reaches_iff {e : Engine} :
    (∃ choices, e.Reaches F₀ choices F) ↔ ReflTransGen e.LeadsTo F₀ F := by
  constructor
  · rintro ⟨choices, hderived, rfl⟩
    exact Run.leadsTo_after (r := e.run Policy.choose (.script choices) F₀) hderived
  · intro h
    obtain ⟨choices, hchoices⟩ := exists_script h
    exact ⟨choices, hchoices (e.run Policy.choose (.script choices) F₀) rfl rfl rfl rfl
      (fun hp => (nomatch hp))⟩

/-! ## 2. Steps without effect -/

section Modes

variable {rules : List Rule} {forms : Registry}

/-- A step in productive mode is a step of the other mode. -/
theorem Engine.leadsTo_of_productive
    (h : (Engine.mk rules forms true).candidates F
      = ((Engine.mk rules forms false).candidates F).map (List.filter (Candidate.isEffective · F)))
    (hlead : (Engine.mk rules forms true).LeadsTo F G) : (Engine.mk rules forms false).LeadsTo F G := by
  obtain ⟨cs, hcs, c, hc, hfire⟩ := hlead
  rw [h] at hcs
  obtain ⟨all, hall, rfl⟩ := map_eq_ok_iff.1 hcs
  exact ⟨all, hall, c, (List.mem_filter.1 hc).1, hfire⟩

/-- A step of the other mode is a step in productive mode, or it changes nothing. -/
theorem Engine.leadsTo_productive_or_eq
    (h : (Engine.mk rules forms true).candidates F
      = ((Engine.mk rules forms false).candidates F).map (List.filter (Candidate.isEffective · F)))
    (hlead : (Engine.mk rules forms false).LeadsTo F G) :
    (Engine.mk rules forms true).LeadsTo F G ∨ G = F := by
  obtain ⟨cs, hcs, c, hc, hfire⟩ := hlead
  rw [hcs] at h
  cases heffect : c.isEffective F with
  | true => exact Or.inl ⟨_, h, c, List.mem_filter.2 ⟨hc, heffect⟩, hfire⟩
  | false =>
    have hsame := Candidate.fire_of_not_effective heffect
    exact Or.inr (Except.ok.inj (hfire.symm.trans hsame))

/-- Both modes lead to the same fact bases, by a simulation in each direction. -/
theorem Engine.reflTransGen_leadsTo_productive
    (h : ∀ F, (Engine.mk rules forms true).candidates F
      = ((Engine.mk rules forms false).candidates F).map (List.filter (Candidate.isEffective · F))) :
    ReflTransGen (Engine.mk rules forms true).LeadsTo F₀ F
      ↔ ReflTransGen (Engine.mk rules forms false).LeadsTo F₀ F := by
  refine ⟨ReflTransGen.mono (fun _ _ => leadsTo_of_productive (h _)) _ _, fun hall => ?_⟩
  induction hall with
  | refl => exact ReflTransGen.refl
  | tail _ hlead ih =>
    rcases leadsTo_productive_or_eq (h _) hlead with hlead | rfl
    · exact ih.tail hlead
    · exact ih

end Modes

/-! ## 3. Domains -/

namespace Domain

/-- Where the conclusions use bound variables only, the filter answers for all solutions. -/
theorem candidates_productive {d : Domain} (hforms : d.forms = .builtin)
    (hbound : ∀ r ∈ d.rules, ∀ v, Issue.conclusion v ∉ r.issues) (F : FactBase) :
    (d.engine true).candidates F
      = ((d.engine false).candidates F).map (List.filter (Candidate.isEffective · F)) := by
  apply Engine.candidates_productive
  intro r hr sols hsols b hb
  rw [hforms] at hsols
  apply Rule.exists_isProductive_eq_ok
  intro t ht
  exact Rule.exists_ground_of_no_conclusion_issue (hbound r hr) (extends_of_mem_solve hsols hb) ht

/-- Where the conclusions use bound variables only, the productive mode loses no state: choosing among
all candidates and choosing among those of the productive mode, the engine comes to the same fact bases,
and over all facts the candidates cannot be enumerated for the same reason. -/
theorem productive_reaches_iff {d : Domain} (hforms : d.forms = .builtin)
    (hbound : ∀ r ∈ d.rules, ∀ v, Issue.conclusion v ∉ r.issues) (F₀ : FactBase) :
    (∀ F, (∃ choices, (d.engine false).Reaches F₀ choices F)
      ↔ ∃ choices, (d.engine true).Reaches F₀ choices F) ∧
    ∀ F err, (d.engine false).candidates F = .error err ↔ (d.engine true).candidates F = .error err := by
  have hcandidates := candidates_productive hforms hbound
  refine ⟨fun F => ?_, fun F err => ?_⟩
  · rw [Engine.exists_reaches_iff, Engine.exists_reaches_iff]
    exact (Engine.reflTransGen_leadsTo_productive hcandidates).symm
  · rw [hcandidates F, map_eq_error_iff]

/-- Lamps are lit: `(lamp ?x)` and `(not (off ?x))` give `(lit ?x)`, and `(lamp ?x)` gives what is known
already. -/
def lamps (lamp off lit : Atom) : Domain :=
  let x : Term := .var ⟨0⟩
  { rules :=
      [{ conditions := [.tuple [.const lamp, x], .negation [.tuple [.const off, x]]]
         conclusions := [[.const lit, x]] },
       { conditions := [.tuple [.const lamp, x]]
         conclusions := [[.const lamp, x]] }]
    facts := [[lamp, .integer 1], [lamp, .integer 2], [off, .integer 2]] }

/-- Only one of the four steps has an effect. -/
theorem productive_reaches_iff_lamps :
    let lit : Atom := .symbol ⟨4⟩
    let d := lamps (.symbol ⟨2⟩) (.symbol ⟨3⟩) lit
    let F₀ := d.initialFacts
    let F := F₀.insert [lit, .integer 1]
    d.forms = .builtin ∧ (∀ r ∈ d.rules, ∀ v, Issue.conclusion v ∉ r.issues) ∧
      (d.engine false).Reaches F₀ [2, 0, 1, 0] F ∧ (∃ choices, (d.engine true).Reaches F₀ choices F) ∧
      ∀ err, (d.engine false).candidates F = .error err ↔ (d.engine true).candidates F = .error err := by
  intro lit d F₀ F
  have hissues : ∀ r ∈ d.rules, r.issues = [] := by decide
  have hbound : ∀ r ∈ d.rules, ∀ v, Issue.conclusion v ∉ r.issues := by
    intro r hr v
    rw [hissues r hr]
    exact List.not_mem_nil
  have hreaches : (d.engine false).Reaches F₀ [2, 0, 1, 0] F := ⟨by decide, by decide⟩
  have ⟨hstates, hcandidates⟩ := productive_reaches_iff (d := d) rfl hbound F₀
  exact ⟨rfl, hbound, hreaches, (hstates F).1 ⟨_, hreaches⟩, hcandidates F⟩

end Domain

end ForwardChaining
