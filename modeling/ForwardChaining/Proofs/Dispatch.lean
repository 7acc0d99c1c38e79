import ForwardChaining.Proofs.Firing

/-!
# Dispatch — a registry is only asked for the heads that occur

The head of a condition decides which form resolves it, at the top and inside other conditions. A head
without a form of its own is left to the facts (`Registry.formOf`). Two registries with the same forms
for the heads that occur, at any depth, therefore solve some conditions alike, whatever they hold for
other heads (`solve_local`).
-/

namespace ForwardChaining

/-! ## 1. Heads -/

mutual

/-- The heads of a condition and of the conditions inside it. A tuple that starts with a variable has
none. -/
def Condition.heads : Condition → List Symbol
  | .tuple t => t.head?.toList
  | .form head args => head :: Argument.headsOfAll args

def Argument.headsOfAll : List Argument → List Symbol
  | [] => []
  | .term _ :: args => Argument.headsOfAll args
  | .condition c :: args => c.heads ++ Argument.headsOfAll args
  | .expr _ :: args => Argument.headsOfAll args

end

theorem Condition.mem_heads_of_head? {c : Condition} {s : Symbol} (h : c.head? = some s) :
    s ∈ c.heads := by
  cases c with
  | tuple t => exact Option.mem_toList.2 h
  | form head args =>
    cases h
    exact List.mem_cons_self

def Rule.heads (r : Rule) : List Symbol :=
  r.conditions.flatMap Condition.heads

/-! ## 2. The forms of heads -/

namespace Registry

variable {r r' : Registry}

/-- The form that resolves the conditions with a head. -/
def formOf (r : Registry) (head : Symbol) : Form :=
  (r.find? head).getD .factMatch

theorem lookup_of_head? {c : Condition} {s : Symbol} (h : c.head? = some s) :
    r.lookup c = r.formOf s := by
  rw [lookup, h]
  rfl

theorem lookup_congr {c : Condition} (h : ∀ s ∈ c.heads, r.formOf s = r'.formOf s) :
    r.lookup c = r'.lookup c := by
  cases hs : c.head? with
  | none => rw [lookup, lookup, hs, Option.bind_none, Option.bind_none]
  | some s => rw [lookup_of_head? hs, lookup_of_head? hs, h s (Condition.mem_heads_of_head? hs)]

theorem formOf_register_of_ne {head s : Symbol} (h : s ≠ head) (form : Form) :
    (r.register head form).formOf s = r.formOf s := by
  rw [formOf, find?_register, if_neg h, formOf]

theorem formOf_builtin_of_ne {s : Symbol} (hn : s ≠ .negation) (hg : s ≠ .guard) :
    builtin.formOf s = plain.formOf s := by
  rw [builtin, formOf_register_of_ne hg, formOf_register_of_ne hn]

end Registry

/-! ## 3. Solving under two registries -/

section Solve

variable {r r' : Registry}

mutual

theorem Condition.search_congr (F : FactBase) : (c : Condition) →
    (∀ s ∈ c.heads, r.formOf s = r'.formOf s) → c.search r F = c.search r' F
  | .tuple t, h => by
    have hform : r.lookup (.tuple t) = r'.lookup (.tuple t) := Registry.lookup_congr h
    rw [Condition.search, Condition.search, hform]
  | .form head args, h => by
    have hform : r.lookup (.form head args) = r'.lookup (.form head args) := Registry.lookup_congr h
    have hargs : Argument.searches r F args = Argument.searches r' F args :=
      Argument.searches_congr F args fun s hs => h s (List.mem_cons_of_mem head hs)
    rw [Condition.search, Condition.search, hform, hargs]

theorem Argument.searches_congr (F : FactBase) : (args : List Argument) →
    (∀ s ∈ Argument.headsOfAll args, r.formOf s = r'.formOf s) →
    Argument.searches r F args = Argument.searches r' F args
  | [], _ => rfl
  | .term _ :: args, h => Argument.searches_congr F args h
  | .condition c :: args, h => by
    have hc : c.search r F = c.search r' F :=
      Condition.search_congr F c fun s hs => h s (List.mem_append_left _ hs)
    have hargs : Argument.searches r F args = Argument.searches r' F args :=
      Argument.searches_congr F args fun s hs => h s (List.mem_append_right _ hs)
    rw [Argument.searches, Argument.searches, hc, hargs]
  | .expr _ :: args, h => Argument.searches_congr F args h

end

theorem solve_congr_registry {cs : List Condition}
    (h : ∀ s ∈ cs.flatMap Condition.heads, r.formOf s = r'.formOf s) (F : FactBase) :
    solve r F cs = solve r' F cs := by
  have hsearch : cs.map (Condition.search r F) = cs.map (Condition.search r' F) :=
    List.map_congr_left fun c hc =>
      c.search_congr F fun s hs => h s (List.mem_flatMap.2 ⟨c, hc, hs⟩)
  unfold solve
  rw [hsearch]

end Solve

/-! ## 4. The candidates of one rule -/

namespace Engine

variable {e : Engine} {F : FactBase}

theorem candidatesOf_eq_ok_filter_flatten {ps : List (Rule × Nat)} {groups : List (List Candidate)}
    (h : (ps.mapM fun p => e.candidatesOf F p.1 p.2) = .ok groups) (hindex : (ps.map Prod.snd).Nodup)
    {i : Nat} {r : Rule} (hr : (r, i) ∈ ps) :
    e.candidatesOf F r i = .ok (groups.flatten.filter (·.ruleIndex = i)) := by
  induction mapM_eq_ok_iff.1 h with
  | nil => cases hr
  | @cons p l ps ls hl hls ih =>
    have ⟨hp, hps⟩ := List.nodup_cons.1 hindex
    have hfirst : ∀ c ∈ l, c.ruleIndex = p.2 := fun c hc =>
      ((mem_of_candidatesOf_eq_ok hl c).1 hc).1
    rw [List.flatten_cons, List.filter_append]
    rcases List.mem_cons.1 hr with rfl | hr
    · -- all candidates of the first rule have its index, and no others do
      have hothers : ∀ c ∈ ls.flatten, c.ruleIndex ≠ i := by
        intro c hc hi
        obtain ⟨l', hl', hc⟩ := List.mem_flatten.1 hc
        obtain ⟨q, hq, hql⟩ := (mem_of_mapM_eq_ok (mapM_eq_ok_iff.2 hls) l').1 hl'
        have hqi : q.2 = i := ((mem_of_candidatesOf_eq_ok hql c).1 hc).1.symm.trans hi
        exact hp (List.mem_map.2 ⟨q, hq, hqi⟩)
      rw [List.filter_eq_self.2 fun c hc => decide_eq_true (hfirst c hc),
        List.filter_eq_nil_iff.2 fun c hc hi => hothers c hc (of_decide_eq_true hi),
        List.append_nil]
      exact hl
    · have hne : p.2 ≠ i := fun hi => hp (hi ▸ List.mem_map.2 ⟨(r, i), hr, rfl⟩)
      rw [List.filter_eq_nil_iff.2 fun c hc hi =>
        hne ((hfirst c hc).symm.trans (of_decide_eq_true hi)), List.nil_append]
      exact ih (mapM_eq_ok_iff.2 hls) hps hr

/-- The candidates of a rule are those with its index. -/
theorem candidatesOf_eq_ok_filter {cs : List Candidate} (h : e.candidates F = .ok cs) {i : Nat}
    {r : Rule} (hr : e.rules[i]? = some r) :
    e.candidatesOf F r i = .ok (cs.filter (·.ruleIndex = i)) := by
  obtain ⟨perRule, hper, h⟩ := bind_eq_ok_iff.1 h
  cases h
  have hindex : (e.rules.zipIdx.map Prod.snd).Nodup := by
    rw [List.zipIdx_map_snd]
    exact List.nodup_range'
  exact candidatesOf_eq_ok_filter_flatten hper hindex (List.mem_zipIdx_iff_getElem?.2 hr)

theorem candidatesOf_register {head : Symbol} {rule : Rule} (h : head ∉ rule.heads) (form : Form)
    (i : Nat) :
    { e with forms := e.forms.register head form }.candidatesOf F rule i
      = e.candidatesOf F rule i := by
  have hforms : ∀ s ∈ rule.heads, (e.forms.register head form).formOf s = e.forms.formOf s :=
    fun s hs => Registry.formOf_register_of_ne (ne_of_mem_of_not_mem hs h) form
  have hsolve : rule.solutions (e.forms.register head form) F = rule.solutions e.forms F := by
    unfold Rule.solutions
    rw [solve_congr_registry hforms F]
  unfold candidatesOf
  rw [hsolve]
  rfl

end Engine

/-- Registries that resolve the heads of some conditions by the same forms solve these conditions alike:
with the same solutions in the same order, or the same error. So a form that is registered for a head
which does not occur in a rule changes no candidate of it, and negations and guards can be left out of
a registry where `not` and `if` do not occur. This is about rules whose heads are resolved by forms that
search nothing but the conditions they are given, as the forms of the language do; a form that solved
conditions of its own making could ask for heads that do not occur in the rule. -/
theorem solve_local :
    (∀ (r r' : Registry) (cs : List Condition),
      (∀ s ∈ cs.flatMap Condition.heads, r.formOf s = r'.formOf s) →
        ∀ F b, solve r F cs b = solve r' F cs b) ∧
    (∀ (e : Engine) (i : Nat) (rule : Rule) (head : Symbol) (form : Form),
      e.rules[i]? = some rule → head ∉ rule.heads → ∀ F,
        let e' := { e with forms := e.forms.register head form }
        e'.candidatesOf F rule i = e.candidatesOf F rule i ∧
          ∀ cs cs', e.candidates F = .ok cs → e'.candidates F = .ok cs' →
            cs'.filter (·.ruleIndex = i) = cs.filter (·.ruleIndex = i)) ∧
    ∀ cs : List Condition, .negation ∉ cs.flatMap Condition.heads →
      .guard ∉ cs.flatMap Condition.heads →
        ∀ F b, solve .builtin F cs b = solve .plain F cs b := by
  refine ⟨fun r r' cs h F b => ?_, fun e i rule head form hrule hhead F => ?_, fun cs hn hg F b => ?_⟩
  · rw [solve_congr_registry h]
  · intro e'
    have hsame : e'.candidatesOf F rule i = e.candidatesOf F rule i :=
      Engine.candidatesOf_register hhead form i
    refine ⟨hsame, fun cs cs' hcs hcs' => ?_⟩
    have hfilter : e.candidatesOf F rule i = .ok (cs.filter (·.ruleIndex = i)) :=
      Engine.candidatesOf_eq_ok_filter hcs hrule
    have hfilter' : e'.candidatesOf F rule i = .ok (cs'.filter (·.ruleIndex = i)) :=
      Engine.candidatesOf_eq_ok_filter hcs' hrule
    exact Except.ok.inj (hfilter'.symm.trans (hsame.trans hfilter))
  · have hforms : ∀ s ∈ cs.flatMap Condition.heads,
        Registry.builtin.formOf s = Registry.plain.formOf s := fun s hs =>
      Registry.formOf_builtin_of_ne (ne_of_mem_of_not_mem hs hn) (ne_of_mem_of_not_mem hs hg)
    rw [solve_congr_registry hforms]

/-- The rule `(node ?0) (not (edge ?0 ?1) (not (dead ?1))) (?2 ?0) => (idle ?0)` is solved alike with
facts as the form of `node` and without, and whatever is registered for `one-of`. Its last condition
starts with a variable, so it finds the fact `(if 3)` and is no guard. -/
theorem solve_local_idle :
    let v (i : Nat) : Term := .var ⟨i⟩
    let name (n : Nat) : Atom := .symbol ⟨n⟩
    let cs : List Condition := [.tuple [.const (name 2), v 0],
      .negation [.tuple [.const (name 3), v 0, v 1], .negation [.tuple [.const (name 4), v 1]]],
      .tuple [v 2, v 0]]
    let rule : Rule := { conditions := cs, conclusions := [[.const (name 5), v 0]] }
    let r : Registry := Registry.builtin.register ⟨6⟩ .oneOf
    let r' : Registry := (Registry.builtin.register ⟨2⟩ .factMatch).register ⟨6⟩ .even
    let F : FactBase := .ofList [[name 2, .integer 2], [name 2, .integer 3], [name 1, .integer 3],
      [name 3, .integer 2, .integer 1], [name 3, .integer 3, .integer 4], [name 4, .integer 4]]
    let b : Binding := ⟨⟨[(0, .integer 3), (2, name 2)], by decide⟩⟩
    let b' : Binding := ⟨⟨[(0, .integer 3), (2, name 1)], by decide⟩⟩
    let e : Engine := { rules := [{}, rule], forms := r }
    let e' := { e with forms := e.forms.register ⟨6⟩ .even }
    let query : List Condition := [.tuple [v 2, .const (.integer 3)]]
    (∀ s ∈ cs.flatMap Condition.heads, r.formOf s = r'.formOf s) ∧
      solve r F cs ∅ = .ok [b, b'] ∧ solve r' F cs ∅ = .ok [b, b'] ∧
      (⟨6⟩ ∉ rule.heads ∧ e'.candidatesOf F rule 1 = e.candidatesOf F rule 1) ∧
      (.negation ∉ query.flatMap Condition.heads ∧ .guard ∉ query.flatMap Condition.heads) ∧
      solve .builtin F query ∅ = solve .plain F query ∅ := by
  intro v name cs rule r r' F b b' e e' query
  have ⟨hsolve, hregister, hplain⟩ := solve_local
  have hforms : ∀ s ∈ cs.flatMap Condition.heads, r.formOf s = r'.formOf s := by
    show ∀ s ∈ [(⟨2⟩ : Symbol), .negation, ⟨3⟩, .negation, ⟨4⟩], r.formOf s = r'.formOf s
    simp only [List.forall_mem_cons]
    exact ⟨rfl, rfl, rfl, rfl, rfl, fun s hs => absurd hs List.not_mem_nil⟩
  have hr : solve r F cs ∅ = .ok [b, b'] := by decide +kernel
  have hhead : ⟨6⟩ ∉ rule.heads := by decide
  have hn : .negation ∉ query.flatMap Condition.heads := by decide
  have hg : .guard ∉ query.flatMap Condition.heads := by decide
  refine ⟨hforms, hr, ?_, ⟨hhead, ?_⟩, ⟨hn, hg⟩, hplain query hn hg F ∅⟩
  · rw [← hsolve r r' cs hforms F ∅, hr]
  · exact (hregister e 1 rule ⟨6⟩ .even rfl hhead F).1

end ForwardChaining
