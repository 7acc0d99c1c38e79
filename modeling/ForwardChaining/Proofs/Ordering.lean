import ForwardChaining.Proofs.Distinctness
import ForwardChaining.Proofs.Firing
import Mathlib.Data.List.Lex

/-!
# Ordering — solutions come in the order of the facts

The trail of a solution lists the places of the facts that its tuples were matched with. The search
goes through the facts from the oldest on, tuple by tuple, so the trails of its solutions ascend
strictly in the lexicographic order (`solve_ascending`). Candidates ascend by rule first.
-/

namespace ForwardChaining

/-! ## 1. Places and trails -/

/-- The place of the fact that a tuple stands for, or the number of facts if there is no such fact. -/
def Tuple.place (F : FactBase) (b : Binding) (t : Tuple) : Nat :=
  F.facts.findIdx fun f => t.ground b = .ok f

def Condition.tuple? : Condition → Option Tuple
  | tuple t => some t
  | form _ _ => none

/-- The places of the facts that the tuples among the conditions stand for, in their order. -/
def Binding.trail (F : FactBase) (cs : List Condition) (b : Binding) : List Nat :=
  (cs.filterMap Condition.tuple?).map (Tuple.place F b)

/-- The lexicographic order of trails. -/
def TrailLt : List Nat → List Nat → Prop :=
  List.Lex fun i j : Nat => i < j

instance : Std.Irrefl TrailLt :=
  inferInstanceAs (Std.Irrefl (List.Lex fun i j : Nat => i < j))

variable {F : FactBase} {b x y : Binding} {t : Tuple} {c : Condition} {cs : List Condition}
  {sols : List Binding}

theorem Tuple.place_eq_idxOf {f : Fact} (h : t.ground b = .ok f) : t.place F b = F.facts.idxOf f := by
  rw [place, List.idxOf]
  congr 1
  funext g
  rw [Bool.eq_iff_iff, decide_eq_true_iff, beq_iff_eq, h, Except.ok.injEq, eq_comm]

theorem Tuple.getElem?_place {f : Fact} (h : t.ground b = .ok f) (hf : f ∈ F) :
    F.facts[t.place F b]? = some f := by
  rw [place_eq_idxOf h]
  exact List.getElem?_idxOf hf

/-- What a binding is extended by does not move the facts that it has found. -/
theorem Tuple.place_of_subset {f : Fact} (hb : b ⊆ x) (h : t.ground b = .ok f) :
    t.place F x = t.place F b := by
  rw [place_eq_idxOf h, place_eq_idxOf (ground_of_subset hb h)]

theorem FactBase.pairwise_idxOf (F : FactBase) :
    F.facts.Pairwise fun f g => F.facts.idxOf f < F.facts.idxOf g := by
  refine List.pairwise_iff_getElem.2 fun i j hi hj hij => ?_
  rw [F.nodup.idxOf_getElem i hi, F.nodup.idxOf_getElem j hj]
  exact hij

/-! ## 2. Solutions -/

theorem FactBase.query_ascending {bs : List Binding} (h : F.query t b = .ok bs) :
    bs.Pairwise fun x y => t.place F x < t.place F y := by
  refine pairwise_of_filterMapM h F.pairwise_idxOf fun f g x y hfg hx hy => ?_
  rw [Tuple.place_eq_idxOf (Tuple.matchFact_eq_ok_some_iff.1 hx).2,
    Tuple.place_eq_idxOf (Tuple.matchFact_eq_ok_some_iff.1 hy).2]
  exact hfg

theorem exists_ground_of_mem_search (h : (Condition.tuple t).search .builtin F b = .ok sols)
    (hx : x ∈ sols) : ∃ f ∈ F, t.ground x = .ok f := by
  by_cases ht : t.IsPlain
  · exact ((FactBase.mem_of_query_eq_ok ((search_tuple_eq_ok_iff ht).1 h) x).1 hx).2
  · exact absurd h (Condition.rejected_tuple ht).search_ne_ok

theorem exists_ground_of_mem_solve (h : solve .builtin F cs b = .ok sols) (hx : x ∈ sols)
    (ht : .tuple t ∈ cs) : ∃ f ∈ F, t.ground x = .ok f := by
  induction cs generalizing b sols with
  | nil => cases ht
  | cons c cs ih =>
    have ⟨mids, hmids, _⟩ := solve_cons_eq_ok_iff.1 h
    have ⟨m, hm, sols', hsols', hx⟩ := (mem_of_solve_cons_eq_ok hmids h x).1 hx
    rcases List.mem_cons.1 ht with rfl | ht
    · have ⟨f, hf, hmf⟩ := exists_ground_of_mem_search hmids hm
      exact ⟨f, hf, Tuple.ground_of_subset (extends_of_mem_solve hsols' hx).1 hmf⟩
    · exact ih hsols' hx ht

/-- Only a tuple has several solutions, and they differ in their place. -/
theorem search_ascending (h : c.search .builtin F b = .ok sols) :
    sols.Pairwise fun x y => ∃ t, c = .tuple t ∧ t.place F x < t.place F y := by
  cases c.kind with
  | tuple t ht =>
    have hquery := FactBase.query_ascending ((search_tuple_eq_ok_iff ht).1 h)
    exact hquery.imp fun hlt => ⟨t, rfl, hlt⟩
  | negation body =>
    obtain ⟨inner, _, rfl⟩ := search_negation_eq_ok_iff.1 h
    split
    · exact List.pairwise_singleton _ b
    · exact List.Pairwise.nil
  | guard e =>
    obtain ⟨p, _, rfl⟩ := search_guard_eq_ok_iff.1 h
    split
    · exact List.pairwise_singleton _ b
    · exact List.Pairwise.nil
  | rejected _ hc => exact absurd h hc.search_ne_ok

/-- The solutions that a solution of the first condition is extended to have its place in common. -/
theorem trailLt_cons {m : Binding} (hm : ∀ t, c = .tuple t → ∃ f, t.ground m = .ok f) (hx : m ⊆ x)
    (hy : m ⊆ y) (h : TrailLt (x.trail F cs) (y.trail F cs)) :
    TrailLt (x.trail F (c :: cs)) (y.trail F (c :: cs)) := by
  cases c with
  | form head args => exact h
  | tuple t =>
    have ⟨f, hf⟩ := hm t rfl
    show TrailLt (t.place F x :: x.trail F cs) (t.place F y :: y.trail F cs)
    rw [Tuple.place_of_subset hx hf, Tuple.place_of_subset hy hf]
    exact List.Lex.cons h

/-- Solutions come in the lexicographic order of their trails. -/
theorem solve_ascending (h : solve .builtin F cs b = .ok sols) :
    sols.Pairwise fun x y => TrailLt (x.trail F cs) (y.trail F cs) := by
  induction cs generalizing b sols with
  | nil =>
    cases h
    exact List.pairwise_singleton _ b
  | cons c cs ih =>
    obtain ⟨mids, hmids, groups, hgroups, rfl⟩ := solve_cons_eq_ok_iff.1 h
    have hground (m : Binding) (hm : m ∈ mids) (t : Tuple) (ht : c = .tuple t) :
        ∃ f, t.ground m = .ok f := by
      rw [ht] at hmids
      have ⟨f, _, hf⟩ := exists_ground_of_mem_search hmids hm
      exact ⟨f, hf⟩
    refine pairwise_flatten_of_mapM hgroups (search_ascending hmids) (fun m hm xs hxs => ?_) ?_
    · -- from one solution of the first condition on, the others decide
      refine (ih hxs).imp_of_mem fun hx hy hlt => ?_
      exact trailLt_cons (hground m hm) (extends_of_mem_solve hxs hx).1
        (extends_of_mem_solve hxs hy).1 hlt
    · -- different solutions of the first condition have different places
      intro m hm m' hm' xs ys hlt hxs hys x hx y hy
      obtain ⟨t, rfl, hlt⟩ := hlt
      have ⟨f, hf⟩ := hground m hm t rfl
      have ⟨g, hg⟩ := hground m' hm' t rfl
      show TrailLt (t.place F x :: x.trail F cs) (t.place F y :: y.trail F cs)
      rw [Tuple.place_of_subset (extends_of_mem_solve hxs hx).1 hf,
        Tuple.place_of_subset (extends_of_mem_solve hys hy).1 hg]
      exact List.Lex.rel hlt

/-! ## 3. Candidates -/

namespace Candidate

/-- Whether a candidate comes before another one: by rule, and for one rule by trail. -/
def Precedes (F : FactBase) (c d : Candidate) : Prop :=
  c.ruleIndex < d.ruleIndex ∨
    c.ruleIndex = d.ruleIndex ∧
      TrailLt (c.binding.trail F c.rule.conditions) (d.binding.trail F d.rule.conditions)

end Candidate

namespace Engine

variable {e : Engine} {l : List Candidate}

theorem candidatesOf_ascending (he : e.forms = .builtin) {r : Rule} {i : Nat}
    (h : e.candidatesOf F r i = .ok l) : l.Pairwise (Candidate.Precedes F) := by
  have ⟨sols, hsols, h⟩ := candidatesOf_eq_ok_iff.1 h
  rw [he] at hsols
  refine pairwise_of_filterMapM h (solve_ascending hsols) fun x y c d hlt hc hd => ?_
  have ⟨p, _, hc⟩ := bind_eq_ok_iff.1 hc
  have ⟨q, _, hd⟩ := bind_eq_ok_iff.1 hd
  -- both are offered
  cases p with
  | false => cases hc
  | true =>
    cases q with
    | false => cases hd
    | true =>
      cases hc
      cases hd
      exact Or.inr ⟨rfl, hlt⟩

theorem candidates_ascending (he : e.forms = .builtin) (h : e.candidates F = .ok l) :
    l.Pairwise (Candidate.Precedes F) := by
  have ⟨perRule, hper, h⟩ := bind_eq_ok_iff.1 h
  cases h
  have hindex : e.rules.zipIdx.Pairwise fun p q => p.2 < q.2 := by
    refine List.pairwise_map.1 ?_
    rw [List.zipIdx_map_snd]
    exact List.pairwise_lt_range' 1
  refine pairwise_flatten_of_mapM hper hindex (fun p _ cs hcs => candidatesOf_ascending he hcs) ?_
  intro p _ q _ cs ds hlt hcs hds c hc d hd
  have hci : c.ruleIndex = p.2 := ((mem_of_candidatesOf_eq_ok hcs c).1 hc).1
  have hdi : d.ruleIndex = q.2 := ((mem_of_candidatesOf_eq_ok hds d).1 hd).1
  exact Or.inl (by rw [hci, hdi]; exact hlt)

theorem candidates_nodup (he : e.forms = .builtin) (h : e.candidates F = .ok l) :
    (l.map fun c => (c.ruleIndex, c.binding)).Nodup := by
  refine List.pairwise_map.2 ((candidates_ascending he h).imp_of_mem fun {c d} hc hd hlt heq => ?_)
  have ⟨hindex, hbinding⟩ := Prod.mk.inj heq
  -- candidates with one index are of one rule
  have hrule : c.rule = d.rule := by
    have hc := ((mem_of_candidates_eq_ok h c).1 hc).1
    have hd := ((mem_of_candidates_eq_ok h d).1 hd).1
    rw [hindex, hd] at hc
    exact (Option.some.inj hc).symm
  rcases hlt with hlt | ⟨_, hlt⟩
  · omega
  · rw [hrule, hbinding] at hlt
    exact Std.Irrefl.irrefl _ hlt

end Engine

/-- Under the built-in forms solutions come in the order of the facts: the facts of the tuples, by their
places, ascend strictly in the lexicographic order. So no solution comes twice, and candidates come in
the order of their rules and then of their facts, each once. -/
theorem solve_and_candidates_ascending (F : FactBase) :
    (∀ cs b sols, solve .builtin F cs b = .ok sols →
      (∀ x ∈ sols, ∀ t, .tuple t ∈ cs →
        ∃ f, t.ground x = .ok f ∧ F.facts[t.place F x]? = some f) ∧
      sols.Pairwise (fun x y => TrailLt (x.trail F cs) (y.trail F cs)) ∧ sols.Nodup) ∧
    ∀ e : Engine, e.forms = .builtin → ∀ l, e.candidates F = .ok l →
      l.Pairwise (Candidate.Precedes F) ∧ (l.map fun c => (c.ruleIndex, c.binding)).Nodup := by
  refine ⟨fun cs b sols h => ⟨fun x hx t ht => ?_, solve_ascending h, ?_⟩, fun e he l h => ?_⟩
  · have ⟨f, hf, hg⟩ := exists_ground_of_mem_solve h hx ht
    exact ⟨f, hg, Tuple.getElem?_place hg hf⟩
  · refine (solve_ascending h).imp fun hlt heq => ?_
    rw [heq] at hlt
    exact Std.Irrefl.irrefl _ hlt
  · exact ⟨Engine.candidates_ascending he h, Engine.candidates_nodup he h⟩

/-- With edges from `1` to `2`, from `2` to `3` and back from `2` to `1` there are three paths of length
two, here by the places of their edges, and one edge that leads nowhere back. -/
theorem solve_and_candidates_ascending_paths :
    let edge : Atom := .symbol ⟨2⟩
    let step (v w : Variable) : Tuple := [.const edge, .var v, .var w]
    let path : List Condition := [.tuple (step ⟨0⟩ ⟨1⟩), .tuple (step ⟨1⟩ ⟨2⟩)]
    let oneWay : List Condition := [.tuple (step ⟨0⟩ ⟨1⟩), .negation [.tuple (step ⟨1⟩ ⟨0⟩)]]
    let F : FactBase := .ofList [[edge, .integer 1, .integer 2], [edge, .integer 2, .integer 3],
      [edge, .integer 2, .integer 1]]
    let e : Engine := { rules := [{ conditions := path }, { conditions := oneWay }] }
    (∃ sols, solve .builtin F path ∅ = .ok sols ∧
      sols.map (Binding.trail F path) = [[0, 1], [0, 2], [2, 0]] ∧ sols.Nodup) ∧
    ∃ l, e.candidates F = .ok l ∧
      l.map (fun c => (c.ruleIndex, c.binding.trail F c.rule.conditions))
        = [(0, [0, 1]), (0, [0, 2]), (0, [2, 0]), (1, [1])] ∧
      l.Pairwise (Candidate.Precedes F) := by
  intro edge step path oneWay F e
  have htrails : (solve .builtin F path ∅).map (List.map (Binding.trail F path))
      = .ok [[0, 1], [0, 2], [2, 0]] := by decide +kernel
  have hcandidates : (e.candidates F).map (List.map fun c =>
      (c.ruleIndex, c.binding.trail F c.rule.conditions))
      = .ok [(0, [0, 1]), (0, [0, 2]), (0, [2, 0]), (1, [1])] := by decide +kernel
  have ⟨sols, hsols, hs⟩ := map_eq_ok_iff.1 htrails
  have ⟨l, hl, hc⟩ := map_eq_ok_iff.1 hcandidates
  have ⟨hsolve, hengine⟩ := solve_and_candidates_ascending F
  exact ⟨⟨sols, hsols, hs, (hsolve path ∅ sols hsols).2.2⟩, l, hl, hc, (hengine e rfl l hl).1⟩

end ForwardChaining
