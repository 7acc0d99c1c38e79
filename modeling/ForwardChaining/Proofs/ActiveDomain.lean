import ForwardChaining.Domain.Simulation
import ForwardChaining.Proofs.Productive
import ForwardChaining.Proofs.Solving
import Mathlib.Algebra.Order.BigOperators.Group.List
import Mathlib.Algebra.Order.Ring.Nat
import Mathlib.Data.Fintype.BigOperators

/-!
# Active domain — productive runs end

Variables get their values from facts, and what a guard computes is never bound. So all atoms that a
run can come to stand in the initial facts or in the conclusions of the rules (`activeDomain`), and
there are so many facts that a conclusion can stand for as there are values for its variables. A
productive run adds one of them each time, so it ends (`Engine.productive_terminates`).
-/

namespace ForwardChaining

/-! ## 1. Atoms of bindings and facts -/

def Tuple.atoms (t : Tuple) : List Atom :=
  t.filterMap Term.atom?

theorem Tuple.mem_atoms_iff {t : Tuple} {a : Atom} : a ∈ t.atoms ↔ Term.const a ∈ t := by
  rw [atoms, List.mem_filterMap]
  refine ⟨fun ⟨u, hu, ha⟩ => ?_, fun h => ⟨_, h, rfl⟩⟩
  cases u with
  | var v => cases ha
  | const a' =>
    cases ha
    exact hu

section Within

variable {A : Finset Atom} {F : FactBase} {b x : Binding}

/-- Whether all values of a binding are in a set of atoms. -/
def Binding.Within (b : Binding) (A : Finset Atom) : Prop :=
  ∀ v a, b.get? v = some a → a ∈ A

/-- Whether all atoms of the facts are in a set of atoms. -/
def FactBase.Within (F : FactBase) (A : Finset Atom) : Prop :=
  ∀ f ∈ F, ∀ a ∈ f, a ∈ A

theorem Binding.within_empty (A : Finset Atom) : (∅ : Binding).Within A :=
  fun _ _ h => (nomatch h)

theorem Tuple.mem_of_ground_eq_ok {t : Tuple} {f : Fact} (h : t.ground b = .ok f)
    (ht : ∀ a ∈ t.atoms, a ∈ A) (hb : b.Within A) : ∀ a ∈ f, a ∈ A := by
  intro a ha
  have ⟨u, hu, hua⟩ := (mem_of_mapM_eq_ok h a).1 ha
  rcases Term.ground_eq_ok_iff.1 hua with rfl | ⟨v, _, hv⟩
  · exact ht a (Tuple.mem_atoms_iff.2 hu)
  · exact hb v a hv

theorem within_of_mem_search (hF : F.Within A) {c : Condition} {sols : List Binding}
    (hb : b.Within A) (h : c.search .builtin F b = .ok sols) (hx : x ∈ sols) : x.Within A := by
  rcases mem_search_cases h hx with ⟨t, _, hext, f, hf, hg⟩ | ⟨_, hxb⟩
  · intro v a hv
    -- a value is an old one, or it comes from the fact that was matched
    rcases (hext.2 v).1 ((x.isBound_iff v).2 ⟨a, hv⟩) with hbv | hvt
    · have ⟨a', ha'⟩ := (b.isBound_iff v).1 hbv
      have haa' : a = a' := Option.some.inj (hv.symm.trans (Binding.get?_of_subset hext.1 ha'))
      rw [haa']
      exact hb v a' ha'
    · have ⟨a', ha', hva'⟩ := Tuple.exists_mem_of_ground_eq_ok hg hvt
      rw [Option.some.inj (hv.symm.trans hva')]
      exact hF f hf a' ha'
  · rw [hxb]
    exact hb

theorem within_of_mem_solve (hF : F.Within A) {cs : List Condition} {sols : List Binding}
    (hb : b.Within A) (h : solve .builtin F cs b = .ok sols) (hx : x ∈ sols) : x.Within A := by
  induction cs generalizing b sols with
  | nil =>
    cases h
    rw [List.mem_singleton.1 hx]
    exact hb
  | cons c cs ih =>
    have ⟨mids, hmids, _⟩ := solve_cons_eq_ok_iff.1 h
    have ⟨m, hm, sols', hsols', hx⟩ := (mem_of_solve_cons_eq_ok hmids h x).1 hx
    exact ih (within_of_mem_search hF hb hmids hm) hsols' hx

end Within

/-! ## 2. The facts that a tuple can stand for -/

/-- The atom of a term, when all variables have values. -/
def Term.value (ρ : Variable → Atom) : Term → Atom
  | .var v => ρ v
  | .const a => a

/-- The facts that a tuple can stand for under values in `A`. -/
def Tuple.instancesOver (A : Finset Atom) (t : Tuple) : Finset Fact :=
  Finset.univ.image fun g : t.vars.toFinset → A =>
    -- only the variables of the tuple are looked at
    t.map (Term.value fun v => if h : v ∈ t.vars.toFinset then g ⟨v, h⟩ else .symbol .negation)

theorem Tuple.card_instancesOver_le (A : Finset Atom) (t : Tuple) :
    (t.instancesOver A).card ≤ A.card ^ t.vars.toFinset.card :=
  calc (t.instancesOver A).card
      ≤ Fintype.card (t.vars.toFinset → A) := Finset.card_image_le
    _ = A.card ^ t.vars.toFinset.card := by
      rw [Fintype.card_fun, Fintype.card_coe, Fintype.card_coe]

theorem Tuple.ground_eq_ok_map {b : Binding} {ρ : Variable → Atom} {t : Tuple}
    (h : ∀ v ∈ t.vars, b.get? v = some (ρ v)) : t.ground b = .ok (t.map (Term.value ρ)) := by
  refine mapM_eq_ok_iff.2 (List.forall₂_map_right_iff.2 (List.forall₂_same.2 fun u hu => ?_))
  cases u with
  | const a => rfl
  | var v => exact Term.ground_eq_ok_iff.2 (Or.inr ⟨v, rfl, h v (mem_vars_iff.2 hu)⟩)

theorem Tuple.mem_instancesOver {A : Finset Atom} {b : Binding} {t : Tuple} {f : Fact}
    (hb : b.Within A) (h : t.ground b = .ok f) : f ∈ t.instancesOver A := by
  -- the values of the variables are read off the binding
  have hbound : ∀ v : t.vars.toFinset, ∃ a : A, b.get? v = some a := fun v => by
    have ⟨a, _, ha⟩ := exists_mem_of_ground_eq_ok h (List.mem_toFinset.1 v.2)
    exact ⟨⟨a, hb v a ha⟩, ha⟩
  choose g hg using hbound
  refine Finset.mem_image.2 ⟨g, Finset.mem_univ g, Except.ok.inj (Eq.trans ?_ h)⟩
  refine (ground_eq_ok_map fun v hv => ?_).symm
  rw [dif_pos (List.mem_toFinset.2 hv)]
  exact hg ⟨v, _⟩

/-! ## 3. Runs stay in the active domain -/

/-- The conclusions of all rules. -/
def conclusionsOf (rules : List Rule) : List Tuple :=
  rules.flatMap Rule.conclusions

/-- The atoms that occur in the initial facts and in the conclusions of the rules. -/
def activeDomain (rules : List Rule) (F₀ : FactBase) : Finset Atom :=
  (F₀.facts.flatten ++ (conclusionsOf rules).flatMap Tuple.atoms).toFinset

/-- How many facts the conclusions can stand for over the active domain, counted for each conclusion
by the number of its variables. -/
def firingBound (rules : List Rule) (F₀ : FactBase) : Nat :=
  ((conclusionsOf rules).map fun t =>
    (activeDomain rules F₀).card ^ t.vars.toFinset.card).sum

section Active

variable {rules : List Rule} {F F₀ G : FactBase} {σ : Type}

theorem mem_activeDomain_of_mem_facts {f : Fact} (hf : f ∈ F₀) {a : Atom} (ha : a ∈ f) :
    a ∈ activeDomain rules F₀ :=
  List.mem_toFinset.2 (List.mem_append_left _ (List.mem_flatten.2 ⟨f, hf, ha⟩))

theorem mem_activeDomain_of_mem_conclusions {t : Tuple} (ht : t ∈ conclusionsOf rules) {a : Atom}
    (ha : a ∈ t.atoms) : a ∈ activeDomain rules F₀ :=
  List.mem_toFinset.2 (List.mem_append_right _ (List.mem_flatMap.2 ⟨t, ht, ha⟩))

/-- What is known of the facts of a run: their atoms are in the active domain, and those that are not
initial are instances of conclusions. -/
structure Active (rules : List Rule) (F₀ F : FactBase) : Prop where
  within : F.Within (activeDomain rules F₀)
  derived : ∀ f ∈ F, f ∈ F₀ ∨
    ∃ t ∈ conclusionsOf rules, f ∈ t.instancesOver (activeDomain rules F₀)

theorem Active.initial (rules : List Rule) (F₀ : FactBase) : Active rules F₀ F₀ where
  within _ hf _ ha := mem_activeDomain_of_mem_facts hf ha
  derived _ hf := Or.inl hf

theorem Active.fire (h : Active rules F₀ F) {e : Engine} (he : e.forms = .builtin)
    (hrules : e.rules = rules) {cs : List Candidate} (hcs : e.candidates F = .ok cs) {c : Candidate}
    (hc : c ∈ cs) (hG : c.fire F = .ok G) : Active rules F₀ G := by
  have ⟨hr, sols, hsols, hb, _⟩ := (Engine.mem_of_candidates_eq_ok hcs c).1 hc
  rw [hrules] at hr
  rw [he] at hsols
  -- a guard computes numbers, but no solution binds them
  have hwithin : c.binding.Within (activeDomain rules F₀) :=
    within_of_mem_solve h.within (Binding.within_empty _) hsols hb
  have hconc : ∀ t ∈ c.rule.conclusions, t ∈ conclusionsOf rules := fun t ht =>
    List.mem_flatMap.2 ⟨c.rule, List.mem_of_getElem? hr, ht⟩
  refine ⟨fun f hf => ?_, fun f hf => ?_⟩
  · rcases (Candidate.mem_of_fire_eq_ok hG f).1 hf with hf | ⟨t, ht, hground⟩
    · exact h.within f hf
    · exact Tuple.mem_of_ground_eq_ok hground
        (fun a ha => mem_activeDomain_of_mem_conclusions (hconc t ht) ha) hwithin
  · rcases (Candidate.mem_of_fire_eq_ok hG f).1 hf with hf | ⟨t, ht, hground⟩
    · exact h.derived f hf
    · exact Or.inr ⟨t, hconc t ht, Tuple.mem_instancesOver hwithin hground⟩

theorem Active.step {r : Run σ} (h : Active rules F₀ r.facts) (he : r.engine.forms = .builtin)
    (hrules : r.engine.rules = rules) : Active rules F₀ r.step.2.facts := by
  rcases r.facts_step_cases with hs | ⟨_, cs, hcs, c, hc, hfire⟩
  · rw [hs]
    exact h
  · exact h.fire he hrules hcs hc hfire

theorem Active.after {r : Run σ} (h : Active rules F₀ r.facts) (he : r.engine.forms = .builtin)
    (hrules : r.engine.rules = rules) (n : Nat) : Active rules F₀ (r.after n).facts := by
  induction n with
  | zero => exact h
  | succ n ih =>
    refine Active.step ih ?_ ?_
    · rw [Run.engine_after, he]
    · rw [Run.engine_after, hrules]

/-- There are at most so many facts as the bound says, besides the initial ones. -/
theorem Active.size_le (h : Active rules F₀ F) : F.size ≤ F₀.size + firingBound rules F₀ := by
  let A := activeDomain rules F₀
  let new := (conclusionsOf rules).flatMap fun t => (t.instancesOver A).toList
  -- the facts are different, so they are no more than the initial ones and all instances
  have hsub : F.facts ⊆ F₀.facts ++ new := fun f hf => by
    rcases h.derived f hf with hf | ⟨t, ht, hft⟩
    · exact List.mem_append_left _ hf
    · exact List.mem_append_right _ (List.mem_flatMap.2 ⟨t, ht, Finset.mem_toList.2 hft⟩)
  have hnew : new.length ≤ firingBound rules F₀ := by
    rw [List.length_flatMap]
    refine List.sum_le_sum fun t _ => ?_
    rw [Finset.length_toList]
    exact t.card_instancesOver_le A
  calc F.size
      ≤ (F₀.facts ++ new).length := (F.nodup.subperm hsub).length_le
    _ = F₀.size + new.length := List.length_append
    _ ≤ F₀.size + firingBound rules F₀ := Nat.add_le_add_left hnew _

theorem Run.derivations_le {r : Run σ} (he : r.engine = .productive rules) (n : Nat) :
    r.derivations n ≤ firingBound rules r.facts := by
  have hprod : r.engine.productiveOnly = true := by rw [he]; rfl
  have hactive : Active rules r.facts (r.after n).facts :=
    (Active.initial rules r.facts).after (by rw [he]; rfl) (by rw [he]; rfl) n
  have hsize := size_add_derivations_le hprod n
  have hle := hactive.size_le
  omega

/-- Productive runs keep to the active domain, whatever is chosen, and derive facts at most so often
as the bound says. So a simulation in productive mode with a larger budget of steps comes to a
fixpoint, or it fails. -/
theorem Engine.productive_terminates (rules : List Rule) (F₀ : FactBase) :
    (∀ (σ : Type) (strategy : Strategy σ) (state : σ) (n : Nat),
      (∀ f ∈ (((productive rules).run strategy state F₀).after n).facts,
        ∀ a ∈ f, a ∈ activeDomain rules F₀) ∧
      ((productive rules).run strategy state F₀).derivations n ≤ firingBound rules F₀) ∧
    ∀ (σ : Type) (s : Simulation σ), s.domain.rules = rules → s.domain.forms = .builtin →
      s.domain.initialFacts = F₀ → s.productiveOnly = true → firingBound rules F₀ < s.maxSteps →
      (∃ err, s.outcome = .error err) ∨ ∃ o, s.outcome = .ok o ∧ o.fixpoint = true := by
  refine ⟨fun σ strategy state n => ⟨?_, ?_⟩, fun σ s hrules hforms hfacts hprod hmax => ?_⟩
  · exact ((Active.initial rules F₀).after (r := (productive rules).run strategy state F₀) rfl rfl
      n).within
  · exact Run.derivations_le (r := (productive rules).run strategy state F₀) rfl n
  · have heng : s.start.engine = productive rules := by
      rw [Simulation.start, Domain.engine, productive, hrules, hforms, hprod]
    have hbound := Run.derivations_le heng s.maxSteps
    rw [show s.start.facts = F₀ from hfacts] at hbound
    rcases s.start.complete_cases s.maxSteps with ⟨hall, _⟩ | ⟨m, _, _, ⟨err, _, h⟩ | ⟨_, h⟩⟩
    · rw [Run.derivations_of_forall hall] at hbound
      omega
    · exact Or.inl ⟨err, h⟩
    · exact Or.inr ⟨_, h, rfl⟩

end Active

/-- Edges between numbers. `(edge ?x ?y)` with `(if (< ?x ?y))` gives `(up ?x ?y)`, and `(up ?x ?y)`
with `(not (edge ?y ?z) (if (< ?y ?z)))` gives `(top ?y)`. -/
def Domain.climbs (edge up top : Atom) : Domain :=
  let x : Term := .var ⟨0⟩
  let y : Term := .var ⟨1⟩
  let z : Term := .var ⟨2⟩
  let less (l r : Term) : Condition := .guard (.binary (.order .lt) (.leaf l) (.leaf r))
  { rules :=
      [{ conditions := [.tuple [.const edge, x, y], less x y]
         conclusions := [[.const up, x, y]] },
       { conditions := [.tuple [.const up, x, y], .negation [.tuple [.const edge, y, z], less y z]]
         conclusions := [[.const top, y]] }]
    facts :=
      [[edge, .integer 1, .integer 2], [edge, .integer 2, .integer 3],
       [edge, .integer 3, .integer 1]] }

/-- Three symbols and three numbers make `6 ^ 2 + 6 ^ 1` conclusions. -/
theorem productive_terminates_climbs :
    let d := Domain.climbs (.symbol ⟨2⟩) (.symbol ⟨3⟩) (.symbol ⟨4⟩)
    let s : Simulation Policy :=
      { domain := d
        strategy := Policy.choose
        state := .cycle [2, 1, 3]
        maxSteps := 43
        productiveOnly := true }
    firingBound d.rules d.initialFacts = 42 ∧
      ((∃ err, s.outcome = .error err) ∨ ∃ o, s.outcome = .ok o ∧ o.fixpoint = true) := by
  intro d s
  have hbound : firingBound d.rules d.initialFacts = 42 := by decide
  have hmax : firingBound d.rules d.initialFacts < s.maxSteps := by
    rw [hbound]
    decide
  exact ⟨hbound, (Engine.productive_terminates _ _).2 Policy s rfl rfl rfl rfl hmax⟩

end ForwardChaining
