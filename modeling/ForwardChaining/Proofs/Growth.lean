import ForwardChaining.Proofs.Endings

/-!
# Growth — what a run adds to its facts, and why

A union appends the given facts that are not known, each at its first place (`FactBase.facts_union`).
So the facts before a step stand at the beginning of the facts after it, and what follows them are
conclusions of the candidate that has fired. Every fact of a run is an initial fact or such a conclusion
(`Run.exists_fires_of_mem_after`).
-/

namespace ForwardChaining

/-! ## 1. Unions -/

namespace FactBase

variable {F : FactBase} {f : Fact} {fs : List Fact}

/-- Those of the given facts that are not known, each at its first place. -/
def news (F : FactBase) (fs : List Fact) : List Fact :=
  (fs.filter (· ∉ F)).eraseDups

theorem ext_facts {F G : FactBase} (h : F.facts = G.facts) : F = G := by
  cases F
  cases G
  congr

theorem insert_of_mem (h : f ∈ F) : F.insert f = F := by
  unfold insert
  rw [dif_pos h]

theorem facts_insert_of_not_mem (h : f ∉ F) : (F.insert f).facts = F.facts ++ [f] := by
  unfold insert
  rw [dif_neg h]

theorem news_cons_of_mem (h : f ∈ F) : F.news (f :: fs) = F.news fs := by
  unfold news
  rw [List.filter_cons_of_neg (by simpa using h)]

/-- A new fact is not news any more once it has been appended. -/
theorem news_cons_of_not_mem (h : f ∉ F) : F.news (f :: fs) = f :: (F.insert f).news fs := by
  unfold news
  rw [List.filter_cons_of_pos (by simpa using h), List.eraseDups_cons, List.filter_filter]
  congr 2
  apply List.filter_congr
  intro g _
  rw [Bool.eq_iff_iff]
  simp only [Bool.and_eq_true, Bool.not_eq_true', beq_eq_false_iff_ne, decide_eq_true_iff, mem_insert,
    not_or]
  exact and_comm

/-- The facts at hand keep their places, and the news follow them. -/
theorem facts_union (F : FactBase) (fs : List Fact) : (F.union fs).facts = F.facts ++ F.news fs := by
  induction fs generalizing F with
  | nil => exact (List.append_nil F.facts).symm
  | cons f fs ih =>
    show ((F.insert f).union fs).facts = _
    rw [ih]
    by_cases h : f ∈ F
    · rw [insert_of_mem h, news_cons_of_mem h]
    · rw [facts_insert_of_not_mem h, news_cons_of_not_mem h, List.append_assoc]
      rfl

theorem size_insert_le (F : FactBase) (f : Fact) : (F.insert f).size ≤ F.size + 1 := by
  by_cases h : f ∈ F
  · rw [insert_of_mem h]
    omega
  · have hlength := congrArg List.length (facts_insert_of_not_mem h)
    exact Nat.le_of_eq (hlength.trans List.length_append)

theorem size_union_le (F : FactBase) (fs : List Fact) : (F.union fs).size ≤ F.size + fs.length := by
  induction fs generalizing F with
  | nil => exact Nat.le_refl _
  | cons f fs ih =>
    have hrest : ((F.insert f).union fs).size ≤ (F.insert f).size + fs.length := ih (F.insert f)
    have hfirst := F.size_insert_le f
    show ((F.insert f).union fs).size ≤ F.size + (fs.length + 1)
    omega

theorem union_append (F : FactBase) (fs gs : List Fact) : F.union (fs ++ gs) = (F.union fs).union gs :=
  List.foldl_append

theorem union_of_subset (h : ∀ f ∈ fs, f ∈ F) : F.union fs = F := by
  induction fs with
  | nil => rfl
  | cons f fs ih =>
    have ⟨hf, hfs⟩ := List.forall_mem_cons.1 h
    show (F.insert f).union fs = F
    rw [insert_of_mem hf]
    exact ih hfs

/-- A fact base that is no larger than the one it has grown from is the same. -/
theorem eq_of_isPrefix {F G : FactBase} (h : F.facts <+: G.facts) (hsize : G.size ≤ F.size) : G = F :=
  ext_facts (h.eq_of_length_le hsize).symm

end FactBase

/-! ## 2. What a candidate appends -/

section Firing

variable {F G : FactBase} {c : Candidate} {σ : Type}

theorem Candidate.size_le_of_fire_eq_ok (h : c.fire F = .ok G) :
    G.size ≤ F.size + c.rule.conclusions.length := by
  obtain ⟨fs, hfs, rfl⟩ := fire_eq_ok_iff.1 h
  rw [(mapM_eq_ok_iff.1 hfs).length_eq]
  exact F.size_union_le fs

theorem Candidate.exists_news_of_fire_eq_ok (h : c.fire F = .ok G) :
    ∃ fs, c.rule.instances c.binding = .ok fs ∧ G.facts = F.facts ++ F.news fs := by
  obtain ⟨fs, hfs, rfl⟩ := fire_eq_ok_iff.1 h
  exact ⟨fs, hfs, F.facts_union fs⟩

theorem Candidate.isPrefix_of_fire_eq_ok (h : c.fire F = .ok G) : F.facts <+: G.facts := by
  have ⟨fs, _, hfacts⟩ := exists_news_of_fire_eq_ok h
  rw [hfacts]
  exact List.prefix_append _ _

namespace Selection

theorem fire_eq_ok_some_iff {s : Selection} :
    s.fire F = .ok (some G) ↔ ∃ c, s.candidate = .ok (some c) ∧ c.fire F = .ok G := by
  unfold fire
  constructor
  · intro h
    have ⟨o, ho, h⟩ := bind_eq_ok_iff.1 h
    cases o with
    | none => cases h
    | some c =>
      have ⟨G', hG', h⟩ := bind_eq_ok_iff.1 h
      cases h
      exact ⟨c, ho, hG'⟩
  · rintro ⟨c, hc, hG⟩
    rw [hc]
    show (do let G ← c.fire F; return some G) = _
    rw [hG]
    rfl

theorem fired_mem_events {s : Selection} (hs : s.candidate = .ok (some c)) (hG : c.fire F = .ok G) :
    .fired c.ruleIndex c.binding (G.size - F.size) ∈ s.events F := by
  cases s with
  | failed err => cases hs
  | noCandidates => cases hs
  | invalid index count => cases hs
  | chosen index count c' =>
    cases hs
    simp [events, hG]

end Selection

namespace Engine

variable {e : Engine} {strategy : Strategy σ} {state : σ}

/-- The candidate that is selected is the one at the index that the strategy answers. -/
theorem select_eq_some_iff :
    (e.select strategy F state).1.candidate = .ok (some c) ↔
      ∃ cs, e.candidates F = .ok cs ∧ cs[(strategy cs state).1]? = some c := by
  unfold select
  cases e.candidates F with
  | error err => simp [Selection.candidate]
  | ok cs =>
    cases cs with
    | nil => simp [Selection.candidate]
    | cons d ds =>
      cases hi : (d :: ds)[(strategy (d :: ds) state).1]? with
      | none => simp [hi, Selection.candidate]
      | some chosen => simp [hi, Selection.candidate]

end Engine

/-! ## 3. Runs -/

namespace Run

variable {r : Run σ} {k : Nat}

/-- Whether the call of `step` after `k` others fires the candidate `c`. -/
def Fires (r : Run σ) (k : Nat) (c : Candidate) : Prop :=
  r.answer k = .ok .derived ∧
    (r.engine.select r.strategy (r.after k).facts (r.after k).state).1.candidate = .ok (some c)

theorem exists_fires_of_derived (h : r.answer k = .ok .derived) :
    ∃ c, r.Fires k c ∧ c.fire (r.after k).facts = .ok (r.after (k + 1)).facts := by
  have ⟨G, state, hstep, hs⟩ := exists_of_step_eq_derived h
  rw [engine_after, strategy_after] at hstep
  have ⟨c, hc, hG⟩ := Selection.fire_eq_ok_some_iff.1 (congrArg Prod.fst hstep)
  rw [after_succ, hs]
  exact ⟨c, ⟨h, hc⟩, hG⟩

/-- A candidate that fires is one of those that the engine offers over the facts before. -/
theorem Fires.mem_candidates (h : r.Fires k c) :
    ∃ cs, r.engine.candidates (r.after k).facts = .ok cs ∧ c ∈ cs := by
  have ⟨cs, hcs, hc⟩ := Engine.select_eq_some_iff.1 h.2
  exact ⟨cs, hcs, List.mem_of_getElem? hc⟩

theorem Fires.fired_mem_events (h : r.Fires k c) (hG : c.fire (r.after k).facts = .ok G) :
    .fired c.ruleIndex c.binding (G.size - (r.after k).facts.size) ∈ (r.after k).events := by
  have hphase : (r.after k).phase ≠ .finished := by
    intro hp
    have hdone : r.answer k = .ok .done := congrArg Prod.fst (step_of_finished hp)
    cases hdone.symm.trans h.1
  unfold events
  rw [if_neg hphase, engine_after, strategy_after]
  exact Selection.fired_mem_events h.2 hG

/-- Every fact of a run is an initial one, or a conclusion of a rule instance that has fired earlier. -/
theorem exists_fires_of_mem_after (r : Run σ) (n : Nat) {f : Fact} (hf : f ∈ (r.after n).facts) :
    f ∈ r.facts ∨ ∃ k < n, ∃ c, r.Fires k c ∧ ∃ t ∈ c.rule.conclusions, t.ground c.binding = .ok f := by
  induction n with
  | zero => exact Or.inl hf
  | succ n ih =>
    -- what is true of the facts before the last step is true of them after it
    have hbefore : f ∈ (r.after n).facts → f ∈ r.facts ∨ ∃ k < n + 1, ∃ c, r.Fires k c ∧
        ∃ t ∈ c.rule.conclusions, t.ground c.binding = .ok f := by
      intro hf
      rcases ih hf with hf | ⟨k, hk, hc⟩
      · exact Or.inl hf
      · exact Or.inr ⟨k, Nat.lt_succ_of_lt hk, hc⟩
    by_cases h : r.answer n = .ok .derived
    · have ⟨c, hc, hfire⟩ := exists_fires_of_derived h
      rcases (Candidate.mem_of_fire_eq_ok hfire f).1 hf with hf | ht
      · exact hbefore hf
      · exact Or.inr ⟨n, Nat.lt_succ_self n, c, hc, ht⟩
    · have hkept : (r.after (n + 1)).facts = (r.after n).facts := (step_of_ne_derived h).1
      rw [hkept] at hf
      exact hbefore hf

theorem facts_isPrefix_succ (r : Run σ) (k : Nat) :
    (r.after k).facts.facts <+: (r.after (k + 1)).facts.facts := by
  by_cases h : r.answer k = .ok .derived
  · have ⟨c, _, hfire⟩ := exists_fires_of_derived h
    exact Candidate.isPrefix_of_fire_eq_ok hfire
  · have hkept : (r.after (k + 1)).facts = (r.after k).facts := (step_of_ne_derived h).1
    exact ⟨[], by rw [hkept, List.append_nil]⟩

/-- The facts of a run stand at the beginning of those that it has later. -/
theorem facts_isPrefix_after (r : Run σ) {j k : Nat} (h : j ≤ k) :
    (r.after j).facts.facts <+: (r.after k).facts.facts := by
  induction h with
  | refl => exact List.prefix_refl _
  | step _ ih => exact ih.trans (r.facts_isPrefix_succ _)

end Run

/-- From one state of a run to the next the facts keep their places, and after them come those
conclusions of the candidate that has fired which were not known, each at its first place. The number of
new facts that is reported is how many these are. So every fact of a run is an initial one, or a
conclusion of a rule instance whose conditions held in an earlier state. -/
theorem Engine.states_grow (e : Engine) (strategy : Strategy σ) (state : σ) (F₀ : FactBase) :
    let r := e.run strategy state F₀
    (∀ k, r.answer k = .ok .derived →
      let F := (r.after k).facts
      let G := (r.after (k + 1)).facts
      F.facts <+: G.facts ∧ G.facts.Nodup ∧ F.size ≤ G.size ∧
        ∃ c cs fs, r.Fires k c ∧ e.candidates F = .ok cs ∧ c ∈ cs ∧
          List.Forall₂ (fun t f => t.ground c.binding = .ok f) c.rule.conclusions fs ∧
          G.facts = F.facts ++ (fs.filter (· ∉ F)).eraseDups ∧
          .fired c.ruleIndex c.binding (fs.filter (· ∉ F)).eraseDups.length ∈ (r.after k).events) ∧
    (∀ k, r.answer k ≠ .ok .derived → (r.after (k + 1)).facts = (r.after k).facts) ∧
    ∀ n, ∀ f ∈ (r.after n).facts, f ∈ F₀ ∨ ∃ k < n, ∃ c, r.Fires k c ∧
      e.rules[c.ruleIndex]? = some c.rule ∧
      (∃ sols, c.rule.solutions e.forms (r.after k).facts = .ok sols ∧ c.binding ∈ sols) ∧
      ∃ t ∈ c.rule.conclusions, t.ground c.binding = .ok f := by
  intro r
  refine ⟨fun k hk => ?_, fun k hk => (Run.step_of_ne_derived hk).1, fun n f hf => ?_⟩
  · intro F G
    have hfront : F.facts <+: G.facts := r.facts_isPrefix_succ k
    have ⟨c, hc, hfire⟩ := Run.exists_fires_of_derived hk
    have ⟨cs, hcs, hmem⟩ := hc.mem_candidates
    have ⟨fs, hfs, hfacts⟩ := Candidate.exists_news_of_fire_eq_ok hfire
    -- the difference of the sizes is the number of the news
    have hevent := hc.fired_mem_events hfire
    have hsize : G.size = F.size + (F.news fs).length :=
      (congrArg List.length hfacts).trans List.length_append
    rw [show G.size - F.size = (F.news fs).length by omega] at hevent
    exact ⟨hfront, G.nodup, hfront.length_le, c, cs, fs, hc, hcs, hmem, mapM_eq_ok_iff.1 hfs, hfacts,
      hevent⟩
  · rcases r.exists_fires_of_mem_after n hf with hf | ⟨k, hk, c, hc, ht⟩
    · exact Or.inl hf
    · have ⟨cs, hcs, hmem⟩ := hc.mem_candidates
      have ⟨hrule, sols, hsols, hb, _⟩ := (mem_of_candidates_eq_ok hcs c).1 hmem
      exact Or.inr ⟨k, hk, c, hc, hrule, ⟨sols, hsols, hb⟩, ht⟩

/-- Edges lead both ways and end in nodes: `(edge ?x ?y)` gives `(edge ?y ?x)`, `(node ?y)` and
`(node ?x)`. -/
def edgeRules (edge node : Atom) : List Rule :=
  let x : Term := .var ⟨0⟩
  let y : Term := .var ⟨1⟩
  [{ conditions := [.tuple [.const edge, x, y]]
     conclusions := [[.const edge, y, x], [.const node, y], [.const node, x]] }]

/-- Of the three conclusions for a loop the first is known and the others are one fact. For the edge
after it all are new but the last. -/
theorem states_grow_edges :
    let edge : Atom := .symbol ⟨2⟩
    let node : Atom := .symbol ⟨3⟩
    let e : Engine := { rules := edgeRules edge node }
    let F₀ : FactBase := .ofList [[edge, .integer 1, .integer 1], [edge, .integer 1, .integer 2]]
    let r := e.run Policy.choose (.script [0, 1]) F₀
    r.answer 1 = .ok .derived ∧
      (r.after 2).facts.facts = F₀.facts ++
        [[node, .integer 1], [edge, .integer 2, .integer 1], [node, .integer 2]] ∧
      (r.after 1).facts.facts <+: (r.after 2).facts.facts ∧
      (∃ c cs, r.Fires 1 c ∧ e.candidates (r.after 1).facts = .ok cs ∧ c ∈ cs) ∧
      ([node, .integer 2] ∈ F₀ ∨ ∃ k < 2, ∃ c, r.Fires k c ∧
        ∃ t ∈ c.rule.conclusions, t.ground c.binding = .ok [node, .integer 2]) := by
  intro edge node e F₀ r
  have ⟨hgrown, _, hjustified⟩ := e.states_grow Policy.choose (.script [0, 1]) F₀
  have hderived : r.answer 1 = .ok .derived := by decide
  have ⟨hfront, _, _, c, cs, _, hc, hcs, hmem, _⟩ := hgrown 1 hderived
  refine ⟨hderived, by decide, hfront, ⟨c, cs, hc, hcs, hmem⟩, ?_⟩
  have hnode : [node, .integer 2] ∈ (r.after 2).facts := by decide
  rcases hjustified 2 _ hnode with h | ⟨k, hk, c, hc, _, _, ht⟩
  · exact Or.inl h
  · exact Or.inr ⟨k, hk, c, hc, ht⟩

end Firing

end ForwardChaining
