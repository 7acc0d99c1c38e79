import ForwardChaining.Proofs.Growth
import ForwardChaining.Proofs.Productive

/-!
# Filtering — what the productive mode passes over

The productive mode looks for the first conclusion that is new, while firing adds all of them. The two
agree: where the filter answers, it keeps a candidate exactly if firing it fails or makes the facts more
(`Candidate.isEffective_of_isProductive`), and firing a candidate that it drops changes nothing
(`Candidate.fire_of_not_effective`). So the candidates in productive mode are a part of the others, in
the same order (`Engine.candidates_productive`).
-/

namespace ForwardChaining

variable {F G : FactBase}

/-! ## 1. Effects -/

namespace Candidate

variable {c : Candidate}

/-- Whether firing a candidate fails or makes the facts more. -/
def isEffective (c : Candidate) (F : FactBase) : Bool :=
  match c.rule.apply c.binding F with
  | .ok G => F.size < G.size
  | .error _ => true

theorem apply_eq_ok_iff : c.rule.apply c.binding F = .ok G ↔ c.fire F = .ok G := by
  unfold fire
  rw [mapError_eq_ok_iff]

/-- Firing a candidate without effect leaves the facts and their order as they are. -/
theorem fire_of_not_effective (h : c.isEffective F = false) : c.fire F = .ok F := by
  unfold isEffective at h
  cases hG : c.rule.apply c.binding F with
  | error e =>
    rw [hG] at h
    cases h
  | ok G =>
    rw [hG] at h
    have hsize : G.size ≤ F.size := Nat.le_of_not_lt (of_decide_eq_false h)
    have hfire := apply_eq_ok_iff.1 hG
    rw [FactBase.eq_of_isPrefix (isPrefix_of_fire_eq_ok hfire) hsize] at hfire
    exact hfire

/-- The first new conclusion decides for all of them. -/
theorem isEffective_of_isProductive {p : Bool} (h : c.rule.isProductive c.binding F = .ok p) :
    c.isEffective F = p := by
  unfold isEffective
  cases p with
  | false =>
    -- all conclusions are known, so nothing is appended
    have hknown := Rule.isProductive_eq_false_iff.1 h
    have ⟨fs, hfs⟩ : ∃ fs, c.rule.instances c.binding = .ok fs := by
      apply Rule.exists_instances_eq_ok_iff.2
      intro t ht
      have ⟨f, _, hf⟩ := hknown t ht
      exact ⟨f, hf⟩
    have hunion : F.union fs = F := by
      apply FactBase.union_of_subset
      intro f hf
      have ⟨t, ht, hft⟩ := (Rule.mem_of_instances_eq_ok hfs f).1 hf
      have ⟨g, hg, hgt⟩ := hknown t ht
      cases hft.symm.trans hgt
      exact hg
    rw [apply_eq_ok_iff.2 (fire_eq_ok_iff.2 ⟨fs, hfs, hunion.symm⟩)]
    exact decide_eq_false (Nat.lt_irrefl _)
  | true =>
    have ⟨t, ht, f, hf, hnew⟩ := Rule.exists_of_isProductive_eq_true h
    -- a later conclusion may be without a value
    cases hG : c.rule.apply c.binding F with
    | error e => rfl
    | ok G =>
      have hfire := apply_eq_ok_iff.1 hG
      have hmem : f ∈ G := (mem_of_fire_eq_ok hfire f).2 (Or.inr ⟨t, ht, hf⟩)
      exact decide_eq_true (FactBase.size_lt_of_subset (subset_of_fire_eq_ok hfire) hnew hmem)

end Candidate

/-! ## 2. Candidates -/

namespace Engine

variable {rules : List Rule} {forms : Registry}

theorem candidatesOf_productive {r : Rule}
    (h : ∀ sols, r.solutions forms F = .ok sols → ∀ b ∈ sols, ∃ p, r.isProductive b F = .ok p)
    (index : Nat) :
    (Engine.mk rules forms true).candidatesOf F r index
      = ((Engine.mk rules forms false).candidatesOf F r index).map (List.filter (Candidate.isEffective · F)) := by
  cases hsols : r.solutions forms F with
  | error err =>
    show (r.solutions forms F >>= _) = Except.map _ (r.solutions forms F >>= _)
    rw [hsols]
    rfl
  | ok sols =>
    let p (b : Binding) : Bool := Candidate.isEffective ⟨index, r, b⟩ F
    have hoffers : ∀ b ∈ sols, (Engine.mk rules forms true).offers F r b = .ok (p b) := by
      intro b hb
      have ⟨q, hq⟩ := h sols hsols b hb
      rw [offers_eq_ok_iff rfl, hq]
      exact congrArg Except.ok (Candidate.isEffective_of_isProductive (c := ⟨index, r, b⟩) hq).symm
    rw [candidatesOf_eq_ok hsols hoffers, candidatesOf_eq_ok_map rfl hsols]
    show _ = Except.ok (List.filter (Candidate.isEffective · F) (sols.map _))
    rw [List.filter_map]
    rfl

/-- Where the filter answers for all solutions, it keeps the candidates with an effect. -/
theorem candidates_productive
    (h : ∀ r ∈ rules, ∀ sols, r.solutions forms F = .ok sols → ∀ b ∈ sols,
      ∃ p, r.isProductive b F = .ok p) :
    (Engine.mk rules forms true).candidates F
      = ((Engine.mk rules forms false).candidates F).map (List.filter (Candidate.isEffective · F)) := by
  refine candidates_eq_map (g := id) (List.map_id _).symm (fun _ => List.filter_flatten) fun r hr i => ?_
  exact candidatesOf_productive (h r hr) i

/-- Where the productive mode has candidates, its filter has answered for all solutions. -/
theorem exists_candidates_eq_ok_filter {l : List Candidate}
    (hl : (Engine.mk rules forms true).candidates F = .ok l) :
    ∃ l₀, (Engine.mk rules forms false).candidates F = .ok l₀ ∧ l = l₀.filter (·.isEffective F) := by
  have hanswers : ∀ r ∈ rules, ∀ sols, r.solutions forms F = .ok sols → ∀ b ∈ sols,
      ∃ p, r.isProductive b F = .ok p := by
    intro r hr sols hsols b hb
    have ⟨sols', hsols', hoffers⟩ := exists_candidates_eq_ok_iff.1 ⟨l, hl⟩ r hr
    cases hsols.symm.trans hsols'
    have ⟨p, hp⟩ := hoffers b hb
    exact ⟨p, (offers_eq_ok_iff rfl).1 hp⟩
  rw [candidates_productive hanswers] at hl
  have ⟨l₀, hl₀, hfilter⟩ := map_eq_ok_iff.1 hl
  exact ⟨l₀, hl₀, hfilter.symm⟩

/-- The candidates in productive mode are those of all candidates whose firing fails or makes the facts
more; firing one of the others changes nothing. So a productive step adds at least one fact and at most
one for each conclusion, and it is at a fixpoint exactly if all conditions can be solved and all
conclusions of all solutions are known. -/
theorem productive_exact (rules : List Rule) (forms : Registry) (F : FactBase) :
    let all : Engine := { rules := rules, forms := forms, productiveOnly := false }
    let productive : Engine := { rules := rules, forms := forms, productiveOnly := true }
    (∀ l, productive.candidates F = .ok l → ∃ l₀, all.candidates F = .ok l₀ ∧
      l = l₀.filter (·.isEffective F) ∧ ∀ c ∈ l₀, c ∉ l → c.rule.apply c.binding F = .ok F) ∧
    ∀ {σ : Type} (strategy : Strategy σ) (state : σ),
      (∀ G, (productive.step strategy F state).1 = .ok (some G) →
        ∃ c, (productive.select strategy F state).1.candidate = .ok (some c) ∧ c.fire F = .ok G ∧
          F.size < G.size ∧ G.size ≤ F.size + c.rule.conclusions.length) ∧
      ((productive.step strategy F state).1 = .ok none ↔
        ∀ r ∈ rules, ∃ sols, r.solutions forms F = .ok sols ∧
          ∀ b ∈ sols, ∀ t ∈ r.conclusions, ∃ f ∈ F, t.ground b = .ok f) := by
  intro all productive
  refine ⟨fun l hl => ?_, fun strategy state => ⟨fun G hG => ?_, ?_⟩⟩
  · have ⟨l₀, hl₀, hfilter⟩ := exists_candidates_eq_ok_filter hl
    refine ⟨l₀, hl₀, hfilter, fun c hc hdropped => ?_⟩
    have hnot : c.isEffective F = false := by
      by_contra hne
      apply hdropped
      rw [hfilter, List.mem_filter]
      exact ⟨hc, eq_true_of_ne_false hne⟩
    exact Candidate.apply_eq_ok_iff.2 (Candidate.fire_of_not_effective hnot)
  · have ⟨c, hc, hfire⟩ := Selection.fire_eq_ok_some_iff.1 hG
    have ⟨cs, hcs, hi⟩ := select_eq_some_iff.1 hc
    exact ⟨c, hc, hfire, size_lt_of_fire_eq_ok rfl hcs (List.mem_of_getElem? hi) hfire,
      Candidate.size_le_of_fire_eq_ok hfire⟩
  · rw [step_eq_none_iff]
    exact candidates_eq_nil_iff rfl

/-- What is painted has a colour, a place that is not said, and is painted: `(painted ?x)` gives
`(coloured ?x)` and `(at ?x ?y)`; it gives `(painted ?x)`; and it gives `(painted ?x)` and
`(coloured ?x)`. -/
def paintRules (painted coloured place : Atom) : List Rule :=
  let x : Term := .var ⟨0⟩
  let y : Term := .var ⟨1⟩
  [{ conditions := [.tuple [.const painted, x]]
     conclusions := [[.const coloured, x], [.const place, x, y]] },
   { conditions := [.tuple [.const painted, x]]
     conclusions := [[.const painted, x]] },
   { conditions := [.tuple [.const painted, x]]
     conclusions := [[.const painted, x], [.const coloured, x]] }]

/-- Of the three rules the filter drops the second. It keeps the first, which fails when it fires, since
its first conclusion is new. -/
theorem productive_exact_paint :
    let painted : Atom := .symbol ⟨2⟩
    let coloured : Atom := .symbol ⟨3⟩
    let rules := paintRules painted coloured (.symbol ⟨4⟩)
    let all : Engine := { rules := rules, forms := .plain, productiveOnly := false }
    let productive : Engine := { rules := rules, forms := .plain, productiveOnly := true }
    let F : FactBase := .ofList [[painted, .integer 1]]
    let G : FactBase := .ofList [[painted, .integer 1], [coloured, .integer 1]]
    let b : Binding := ⟨⟨[(0, .integer 1)], by decide⟩⟩
    let l : List Candidate :=
      rules.zipIdx.filterMap fun p => if p.2 = 1 then none else some ⟨p.2, p.1, b⟩
    productive.candidates F = .ok l ∧
      (∃ l₀, all.candidates F = .ok l₀ ∧ l = l₀.filter (·.isEffective F) ∧
        ∀ c ∈ l₀, c ∉ l → c.rule.apply c.binding F = .ok F) ∧
      (productive.step Policy.choose F (.constant 1)).1 = .ok (some G) ∧
      (∃ c, (productive.select Policy.choose F (.constant 1)).1.candidate = .ok (some c) ∧
        c.fire F = .ok G ∧ F.size < G.size ∧ G.size ≤ F.size + c.rule.conclusions.length) ∧
      (productive.step Policy.choose F (.constant 0)).1 = .error (.unbound ⟨1⟩) := by
  intro painted coloured rules all productive F G b l
  have hl : productive.candidates F = .ok l := by rfl
  have hG : (productive.step Policy.choose F (.constant 1)).1 = .ok (some G) := by rfl
  have ⟨hcandidates, hstep⟩ := productive_exact rules .plain F
  exact ⟨hl, hcandidates l hl, hG, (hstep Policy.choose (.constant 1)).1 G hG, by rfl⟩

end Engine

end ForwardChaining
