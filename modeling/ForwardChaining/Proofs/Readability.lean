import ForwardChaining.Proofs.Spelling

/-!
# Readability — different expressions, tuples and facts have different texts

Everything is printed as an s-expression: a word, or a list of s-expressions between parentheses. Such a
text ends where it ends, whatever is written behind it (`IsSexp.readsUniquely`), so lists with the same
text have the same members. Where the names of symbols are words that look neither like a variable nor
like an integer, expressions, tuples and facts can therefore be told by their texts
(`Printer.texts_unique`).
-/

namespace ForwardChaining

/-! ## 1. S-expressions -/

def isWordChar (c : Char) : Bool :=
  c ≠ ' ' ∧ c ≠ '(' ∧ c ≠ ')'

/-- Whether a text is a word, which has no space and no parenthesis. -/
def IsWord (s : String) : Prop :=
  s ≠ "" ∧ ∀ c ∈ s.toList, isWordChar c = true

instance (s : String) : Decidable (IsWord s) :=
  decidable_of_iff (s ≠ "" ∧ s.toList.all isWordChar = true) (and_congr Iff.rfl List.all_eq_true)

/-- Whether a text is an s-expression. -/
inductive IsSexp : String → Prop where
  | word {s : String} (h : IsWord s) : IsSexp s
  | list {ts : List String} (h : ∀ t ∈ ts, IsSexp t) : IsSexp (parenthesized ts)

/-- Whether a word ends where this text begins. -/
def Breaks (rest : List Char) : Prop :=
  ∀ c ∈ rest.head?, isWordChar c = false

/-- Whether no other s-expression than `s` can be read at the front of a text that starts with `s`. -/
def ReadsUniquely (s : String) : Prop :=
  ∀ t, IsSexp t → ∀ rest rest', Breaks rest → Breaks rest' →
    s.toList ++ rest = t.toList ++ rest' → s = t ∧ rest = rest'

/-- The characters of some texts, each after a space. -/
def spaced (ts : List String) : List Char :=
  ts.flatMap fun t => ' ' :: t.toList

section Lists

variable {s : String} {ts us : List String} {rest rest' : List Char}

theorem toList_parenthesized_nil : (parenthesized []).toList = ['(', ')'] := rfl

theorem toList_parenthesized_cons (t : String) (ts : List String) :
    (parenthesized (t :: ts)).toList = '(' :: (t.toList ++ (spaced ts ++ [')'])) := by
  rw [parenthesized_cons, String.toList_append, String.toList_append, String.toList_append,
    String.toList_join, List.flatMap_map, List.append_assoc, List.append_assoc]
  have hspaced : (ts.flatMap fun u => (" " ++ u).toList) = spaced ts := by
    simp only [String.toList_append]
    rfl
  rw [hspaced]
  rfl

theorem exists_toList_parenthesized (ts : List String) :
    ∃ cs, (parenthesized ts).toList = '(' :: cs := by
  cases ts with
  | nil => exact ⟨[')'], toList_parenthesized_nil⟩
  | cons t ts => exact ⟨_, toList_parenthesized_cons t ts⟩

theorem IsWord.exists_toList (h : IsWord s) : ∃ c cs, s.toList = c :: cs ∧ isWordChar c = true := by
  cases hs : s.toList with
  | nil => exact absurd (String.toList_eq_nil_iff.1 hs) h.1
  | cons c cs => exact ⟨c, cs, rfl, h.2 c (hs ▸ List.mem_cons_self)⟩

theorem IsWord.ne_parenthesized (h : IsWord s) (ts : List String) : s ≠ parenthesized ts := by
  rintro rfl
  obtain ⟨cs, hcs⟩ := exists_toList_parenthesized ts
  exact absurd (h.2 '(' (hcs ▸ List.mem_cons_self)) (by decide)

theorem IsSexp.exists_toList (h : IsSexp s) : ∃ c cs, s.toList = c :: cs ∧ c ≠ ')' := by
  cases h with
  | word h =>
    obtain ⟨c, cs, hs, hc⟩ := h.exists_toList
    refine ⟨c, cs, hs, ?_⟩
    rintro rfl
    exact absurd hc (by decide)
  | list h =>
    obtain ⟨cs, hcs⟩ := exists_toList_parenthesized _
    exact ⟨'(', cs, hcs, by decide⟩

theorem breaks_spaced (ts : List String) (rest : List Char) : Breaks (spaced ts ++ ')' :: rest) := by
  intro c hc
  cases ts with
  | nil =>
    cases hc
    decide
  | cons t ts =>
    cases hc
    decide

/-! ## 2. Unique readability -/

theorem takeWhile_of_breaks (h : Breaks rest) : rest.takeWhile isWordChar = [] := by
  cases rest with
  | nil => rfl
  | cons c cs => exact List.takeWhile_cons_of_neg (Bool.eq_false_iff.1 (h c rfl))

/-- A word goes as far as there are word characters. -/
theorem takeWhile_word (h : IsWord s) (hrest : Breaks rest) :
    (s.toList ++ rest).takeWhile isWordChar = s.toList := by
  rw [List.takeWhile_append_of_pos h.2, takeWhile_of_breaks hrest, List.append_nil]

theorem readsUniquely_word (h : IsWord s) : ReadsUniquely s := by
  intro t ht rest rest' hrest hrest' heq
  cases ht with
  | word ht =>
    have hst : s.toList = t.toList := by
      rw [← takeWhile_word h hrest, heq, takeWhile_word ht hrest']
    rw [hst] at heq
    exact ⟨String.toList_inj.1 hst, List.append_cancel_left heq⟩
  | list ht =>
    -- a list starts with a parenthesis
    obtain ⟨c, cs, hs, hc⟩ := h.exists_toList
    obtain ⟨ds, hds⟩ := exists_toList_parenthesized _
    rw [hs, hds] at heq
    rw [(List.cons.inj heq).1] at hc
    exact absurd hc (by decide)

theorem spaced_inj (hts : ∀ t ∈ ts, ReadsUniquely t) (hus : ∀ u ∈ us, IsSexp u)
    (h : spaced ts ++ ')' :: rest = spaced us ++ ')' :: rest') : ts = us ∧ rest = rest' := by
  induction ts generalizing us with
  | nil =>
    cases us with
    | nil => exact ⟨rfl, (List.cons.inj h).2⟩
    | cons u us => exact absurd (List.cons.inj h).1 (by decide)
  | cons t ts ih =>
    cases us with
    | nil => exact absurd (List.cons.inj h).1 (by decide)
    | cons u us =>
      have ⟨ht, hts'⟩ := List.forall_mem_cons.1 hts
      have ⟨hu, hus'⟩ := List.forall_mem_cons.1 hus
      have htail : t.toList ++ (spaced ts ++ ')' :: rest) = u.toList ++ (spaced us ++ ')' :: rest') := by
        rw [← List.append_assoc, ← List.append_assoc]
        exact (List.cons.inj h).2
      have ⟨hfirst, hothers⟩ := ht u hu _ _ (breaks_spaced ts rest) (breaks_spaced us rest') htail
      have ⟨hlist, hrest⟩ := ih hts' hus' hothers
      exact ⟨by rw [hfirst, hlist], hrest⟩

theorem parenthesized_append_inj (hts : ∀ t ∈ ts, IsSexp t ∧ ReadsUniquely t)
    (hus : ∀ u ∈ us, IsSexp u)
    (h : (parenthesized ts).toList ++ rest = (parenthesized us).toList ++ rest') :
    ts = us ∧ rest = rest' := by
  have hcons (t : String) (ts : List String) (rest : List Char) :
      (parenthesized (t :: ts)).toList ++ rest = '(' :: (t.toList ++ (spaced ts ++ ')' :: rest)) := by
    rw [toList_parenthesized_cons, List.cons_append, List.append_assoc, List.append_assoc]
    rfl
  cases ts with
  | nil =>
    cases us with
    | nil => exact ⟨rfl, (List.cons.inj (List.cons.inj h).2).2⟩
    | cons u us =>
      obtain ⟨c, cs, hc, hne⟩ := (hus u List.mem_cons_self).exists_toList
      rw [hcons, hc] at h
      exact absurd (List.cons.inj (List.cons.inj h).2).1.symm hne
  | cons t ts =>
    cases us with
    | nil =>
      obtain ⟨c, cs, hc, hne⟩ := (hts t List.mem_cons_self).1.exists_toList
      rw [hcons, hc] at h
      exact absurd (List.cons.inj (List.cons.inj h).2).1 hne
    | cons u us =>
      -- with a space in front the first members are like the others
      rw [hcons, hcons] at h
      have hspaced : spaced (t :: ts) ++ ')' :: rest = spaced (u :: us) ++ ')' :: rest' := by
        show ' ' :: (t.toList ++ spaced ts) ++ _ = ' ' :: (u.toList ++ spaced us) ++ _
        rw [List.cons_append, List.cons_append, List.append_assoc, List.append_assoc,
          (List.cons.inj h).2]
      exact spaced_inj (fun t ht => (hts t ht).2) hus hspaced

/-- An s-expression ends where it ends, whatever is written behind it. -/
theorem IsSexp.readsUniquely (h : IsSexp s) : ReadsUniquely s := by
  induction h with
  | word h => exact readsUniquely_word h
  | @list ts hts ih =>
    intro t ht rest rest' hrest hrest' heq
    cases ht with
    | word ht =>
      have ⟨heq, hrest⟩ := readsUniquely_word ht _ (IsSexp.list hts) rest' rest hrest' hrest heq.symm
      exact ⟨heq.symm, hrest.symm⟩
    | list hus =>
      have ⟨hlist, hrest⟩ := parenthesized_append_inj (fun t ht => ⟨hts t ht, ih t ht⟩) hus heq
      exact ⟨congrArg parenthesized hlist, hrest⟩

theorem parenthesized_inj (hts : ∀ t ∈ ts, IsSexp t) (hus : ∀ u ∈ us, IsSexp u)
    (h : parenthesized ts = parenthesized us) : ts = us :=
  (parenthesized_append_inj (fun t ht => ⟨hts t ht, (hts t ht).readsUniquely⟩) hus
    (congrArg (fun s => s.toList ++ []) h)).1

end Lists

/-! ## 3. Texts of atoms and terms -/

theorem isWordChar_of_isDigit {c : Char} (h : c.isDigit = true) : isWordChar c = true := by
  have hne : ∀ d : Char, d.isDigit = false → c ≠ d := by
    rintro d hd rfl
    rw [h] at hd
    cases hd
  exact decide_eq_true ⟨hne ' ' (by decide), hne '(' (by decide), hne ')' (by decide)⟩

theorem isDigit_of_mem_repr {n : Nat} {c : Char} (h : c ∈ n.repr.toList) : c.isDigit = true := by
  rw [Nat.toList_repr] at h
  exact Nat.isDigit_of_mem_toDigits (by decide) (by decide) h

theorem Integer.text_eq (i : Integer) : ∃ n : Nat, i.text = n.repr ∨ i.text = "-" ++ n.repr := by
  unfold text
  cases i.toInt with
  | ofNat n => exact ⟨n, Or.inl rfl⟩
  | negSucc n => exact ⟨n.succ, Or.inr rfl⟩

theorem Integer.mem_text {i : Integer} {c : Char} (h : c ∈ i.text.toList) :
    c = '-' ∨ c.isDigit = true := by
  obtain ⟨n, hn | hn⟩ := i.text_eq
  · rw [hn] at h
    exact Or.inr (isDigit_of_mem_repr h)
  · rw [hn, String.toList_append] at h
    exact (List.mem_cons.1 h).imp_right isDigit_of_mem_repr

theorem Integer.isWord_text (i : Integer) : IsWord i.text := by
  refine ⟨?_, fun c hc => ?_⟩
  · obtain ⟨n, hn | hn⟩ := i.text_eq
    · rw [hn]
      exact Nat.repr_ne_empty
    · rw [hn]
      exact fun h => absurd (String.append_eq_empty_iff.1 h).1 (by decide)
  · rcases mem_text hc with rfl | hc
    · decide
    · exact isWordChar_of_isDigit hc

theorem Variable.toList_text (v : Variable) : v.text.toList = '$' :: v.ordinal.repr.toList := by
  rw [text, String.toList_append]
  rfl

theorem Variable.isWord_text (v : Variable) : IsWord v.text := by
  refine ⟨fun h => ?_, fun c hc => ?_⟩
  · rw [← String.toList_eq_nil_iff, toList_text] at h
    cases h
  · rw [toList_text] at hc
    rcases List.mem_cons.1 hc with rfl | hc
    · decide
    · exact isWordChar_of_isDigit (isDigit_of_mem_repr hc)

theorem Variable.text_inj {v w : Variable} (h : v.text = w.text) : v = w := by
  have hrepr : v.ordinal.repr = w.ordinal.repr := (String.append_right_inj "$").1 h
  exact congrArg Variable.mk (Nat.repr_inj.1 hrepr)

theorem Integer.ne_text {name : String} {c : Char} (hc : c ∈ name.toList)
    (h : c ≠ '-' ∧ c.isDigit = false) (i : Integer) : name ≠ i.text := by
  rintro rfl
  rcases mem_text hc with rfl | hdigit
  · exact h.1 rfl
  · exact absurd hdigit (Bool.eq_false_iff.1 h.2)

/-- Whether the names of a table are words that look neither like a variable nor like an integer. -/
def SymbolTable.IsClear (t : SymbolTable) : Prop :=
  ∀ name ∈ t.names, IsWord name ∧ name.toList.head? ≠ some '$' ∧ ∀ i : Integer, name ≠ i.text

theorem SymbolTable.isClear_initial : initial.IsClear := by
  refine List.forall_mem_cons.2 ⟨⟨by decide, by decide, ?_⟩,
    List.forall_mem_singleton.2 ⟨by decide, by decide, ?_⟩⟩
  · exact Integer.ne_text (List.mem_cons_self : 'n' ∈ "not".toList) (by decide)
  · exact Integer.ne_text (List.mem_cons_self : 'i' ∈ "if".toList) (by decide)

/-- Whether a symbol has a name. Integers need none. -/
def Atom.IsKnown (t : SymbolTable) : Atom → Prop
  | .symbol s => (t.name? s).isSome = true
  | .integer _ => True

def Term.IsKnown (t : SymbolTable) : Term → Prop
  | .const a => a.IsKnown t
  | .var _ => True

instance (t : SymbolTable) : (a : Atom) → Decidable (a.IsKnown t)
  | .symbol s => inferInstanceAs (Decidable ((t.name? s).isSome = true))
  | .integer _ => inferInstanceAs (Decidable True)

instance (t : SymbolTable) : (x : Term) → Decidable (x.IsKnown t)
  | .const a => inferInstanceAs (Decidable (a.IsKnown t))
  | .var _ => inferInstanceAs (Decidable True)

namespace Printer

variable {t : SymbolTable}

theorem atom_cases (ht : t.IsClear) {a : Atom} (ha : a.IsKnown t) :
    IsWord ((Printer.mk t none).atom a) ∧ ((Printer.mk t none).atom a).toList.head? ≠ some '$' ∧
      (Vocabulary.mk t ∅).Spells a := by
  cases a with
  | symbol s =>
    obtain ⟨name, hname⟩ := Option.isSome_iff_exists.1 ha
    have ⟨hword, hvariable, hinteger⟩ := ht name (List.mem_of_getElem? hname)
    rw [atom_symbol hname]
    exact ⟨hword, hvariable, name, hname, hinteger⟩
  | integer i =>
    refine ⟨i.isWord_text, fun h => ?_, trivial⟩
    rcases Integer.mem_text (List.mem_of_mem_head? h) with h | h
    · exact absurd h (by decide)
    · exact absurd h (by decide)

theorem isWord_term (ht : t.IsClear) {x : Term} (hx : x.IsKnown t) :
    IsWord ((Printer.mk t none).term x) := by
  cases x with
  | var v => exact v.isWord_text
  | const a => exact (atom_cases ht hx).1

/-- A known atom is what its text is read as. -/
theorem atom_inj (ht : t.IsClear) (a b : Atom) (ha : a.IsKnown t) (hb : b.IsKnown t)
    (h : (Printer.mk t none).atom a = (Printer.mk t none).atom b) : a = b := by
  have hreada := Vocabulary.atom_print (atom_cases ht ha).2.2
  have hreadb := Vocabulary.atom_print (atom_cases ht hb).2.2
  have htext : (Vocabulary.mk t ∅).printer.atom a = (Vocabulary.mk t ∅).printer.atom b := h
  rw [htext, hreadb] at hreada
  exact (Prod.mk.inj hreada).1.symm

theorem term_inj (ht : t.IsClear) (x y : Term) (hx : x.IsKnown t) (hy : y.IsKnown t)
    (h : (Printer.mk t none).term x = (Printer.mk t none).term y) : x = y := by
  have hdollar (v : Variable) {a : Atom} (ha : a.IsKnown t) :
      v.text ≠ (Printer.mk t none).atom a := by
    intro heq
    apply (atom_cases ht ha).2.1
    rw [← heq, v.toList_text]
    rfl
  cases x with
  | var v =>
    cases y with
    | var w => exact congrArg Term.var (Variable.text_inj h)
    | const b => exact absurd h (hdollar v hy)
  | const a =>
    cases y with
    | var w => exact absurd h.symm (hdollar w hx)
    | const b => exact congrArg Term.const (atom_inj ht a b hx hy h)

/-! ## 4. Texts of lists and expressions -/

theorem list_inj {α : Type} {known : α → Prop} {text : α → String}
    (hword : ∀ x, known x → IsWord (text x))
    (hinj : ∀ x y, known x → known y → text x = text y → x = y) {xs ys : List α}
    (hxs : ∀ x ∈ xs, known x) (hys : ∀ y ∈ ys, known y)
    (h : parenthesized (xs.map text) = parenthesized (ys.map text)) : xs = ys := by
  have hsexp : ∀ zs : List α, (∀ z ∈ zs, known z) → ∀ s ∈ zs.map text, IsSexp s := by
    intro zs hzs s hs
    obtain ⟨z, hz, rfl⟩ := List.mem_map.1 hs
    exact IsSexp.word (hword z (hzs z hz))
  have htexts : xs.map text = ys.map text := parenthesized_inj (hsexp xs hxs) (hsexp ys hys) h
  clear h
  induction xs generalizing ys with
  | nil => exact (List.map_eq_nil_iff.1 htexts.symm).symm
  | cons x xs ih =>
    cases ys with
    | nil => cases htexts
    | cons y ys =>
      have ⟨hx, hxs⟩ := List.forall_mem_cons.1 hxs
      have ⟨hy, hys⟩ := List.forall_mem_cons.1 hys
      have ⟨hfirst, hrest⟩ := List.cons.inj htexts
      rw [hinj x y hx hy hfirst, ih hxs hys hrest]

theorem isWord_op (op : BinaryOp) : IsWord op.text := by
  cases op <;> rename_i op <;> cases op <;> decide

theorem op_inj {op op' : BinaryOp} (h : op.text = op'.text) : op = op' := by
  have hread := BinaryOp.ofText?_text op
  rw [h, BinaryOp.ofText?_text] at hread
  exact (Option.some.inj hread).symm

/-- What stands between the outer parentheses of an expression. A leaf has none. -/
def parts (p : Printer) : Expr Term → List String
  | .leaf _ => []
  | .binary op l r => [op.text, p.expr l, p.expr r]
  | .not e => ["not", p.expr e]

theorem isSexp_of_parts (ht : t.IsClear) (e : Expr Term) (he : ∀ x ∈ e.leaves, x.IsKnown t)
    (h : ∀ s ∈ (Printer.mk t none).parts e, IsSexp s) : IsSexp ((Printer.mk t none).expr e) := by
  cases e with
  | leaf x => exact IsSexp.word (isWord_term ht (he x (List.mem_singleton_self x)))
  | binary op l r => exact IsSexp.list h
  | not e => exact IsSexp.list h

theorem isSexp_parts (ht : t.IsClear) {e : Expr Term} (he : ∀ x ∈ e.leaves, x.IsKnown t) :
    ∀ s ∈ (Printer.mk t none).parts e, IsSexp s := by
  induction e with
  | leaf x => exact List.forall_mem_nil _
  | binary op l r ihl ihr =>
    have ⟨hl, hr⟩ := List.forall_mem_append.1 he
    have hleft := isSexp_of_parts ht l hl (ihl hl)
    have hright := isSexp_of_parts ht r hr (ihr hr)
    exact List.forall_mem_cons.2
      ⟨.word (isWord_op op), List.forall_mem_cons.2 ⟨hleft, List.forall_mem_singleton.2 hright⟩⟩
  | not e ih =>
    have hoperand := isSexp_of_parts ht e he (ih he)
    exact List.forall_mem_cons.2 ⟨.word (by decide), List.forall_mem_singleton.2 hoperand⟩

theorem expr_inj (ht : t.IsClear) (e e' : Expr Term) (he : ∀ x ∈ e.leaves, x.IsKnown t)
    (he' : ∀ x ∈ e'.leaves, x.IsKnown t)
    (h : (Printer.mk t none).expr e = (Printer.mk t none).expr e') : e = e' := by
  have hleaf (x : Term) (he : ∀ y ∈ [x], y.IsKnown t) (ts : List String) :
      (Printer.mk t none).term x ≠ parenthesized ts :=
    (isWord_term ht (he x (List.mem_singleton_self x))).ne_parenthesized ts
  have hparts {e e' : Expr Term} (he : ∀ x ∈ e.leaves, x.IsKnown t)
      (he' : ∀ x ∈ e'.leaves, x.IsKnown t) :=
    parenthesized_inj (isSexp_parts ht he) (isSexp_parts ht he')
  induction e generalizing e' with
  | leaf x =>
    cases e' with
    | leaf y =>
      have hx := he x (List.mem_singleton_self x)
      have hy := he' y (List.mem_singleton_self y)
      exact congrArg Expr.leaf (term_inj ht x y hx hy h)
    | binary op' l' r' => exact absurd h (hleaf x he _)
    | not e' => exact absurd h (hleaf x he _)
  | binary op l r ihl ihr =>
    cases e' with
    | leaf y => exact absurd h.symm (hleaf y he' _)
    | binary op' l' r' =>
      have ⟨hl, hr⟩ := List.forall_mem_append.1 he
      have ⟨hl', hr'⟩ := List.forall_mem_append.1 he'
      have ⟨hop, hoperands⟩ := List.cons.inj (hparts he he' h)
      have ⟨hleft, hright⟩ := List.cons.inj hoperands
      rw [op_inj hop, ihl l' hl hl' hleft, ihr r' hr hr' (List.cons.inj hright).1]
    | not e' =>
      -- an operator has two operands, a negation one
      exact absurd (congrArg List.length (hparts he he' h)) (Nat.succ_ne_self 2)
  | not e ih =>
    cases e' with
    | leaf y => exact absurd h.symm (hleaf y he' _)
    | binary op' l' r' =>
      exact absurd (congrArg List.length (hparts he he' h)).symm (Nat.succ_ne_self 2)
    | not e' =>
      have hoperand := (List.cons.inj (List.cons.inj (hparts he he' h)).2).1
      rw [ih e' he he' hoperand]

/-- With clear names, expressions, tuples and facts of known symbols are told by their texts. -/
theorem texts_unique (ht : t.IsClear) :
    let p := Printer.mk t none
    (∀ e e' : Expr Term, (∀ x ∈ e.leaves, x.IsKnown t) → (∀ x ∈ e'.leaves, x.IsKnown t) →
      p.expr e = p.expr e' → e = e') ∧
    (∀ u u' : Tuple, (∀ x ∈ u, x.IsKnown t) → (∀ x ∈ u', x.IsKnown t) →
      p.tuple u = p.tuple u' → u = u') ∧
    ∀ f f' : Fact, (∀ a ∈ f, a.IsKnown t) → (∀ a ∈ f', a.IsKnown t) →
      p.fact f = p.fact f' → f = f' := by
  intro p
  exact ⟨expr_inj ht,
    fun u u' hu hu' => list_inj (fun x hx => isWord_term ht hx) (term_inj ht) hu hu',
    fun f f' hf hf' => list_inj (fun a ha => (atom_cases ht ha).1) (atom_inj ht) hf hf'⟩

/-- `(- (- $0 1) not)` is not `(- $0 (- 1 not))`, `($0 not)` not `($0 if)` and `(1 2)` not `(12)`. -/
theorem texts_unique_initial :
    let p := Printer.mk .initial none
    let minus := Expr.binary (.arith .sub)
    let x := Expr.leaf (.var ⟨0⟩)
    let one := Expr.leaf (.const (.integer 1))
    let name := Expr.leaf (.const (.symbol .negation))
    SymbolTable.initial.IsClear ∧
      p.expr (minus (minus x one) name) ≠ p.expr (minus x (minus one name)) ∧
      p.tuple [.var ⟨0⟩, .const (.symbol .negation)] ≠ p.tuple [.var ⟨0⟩, .const (.symbol .guard)] ∧
      p.fact [.integer 1, .integer 2] ≠ p.fact [.integer 12] := by
  have htexts := texts_unique SymbolTable.isClear_initial
  refine ⟨SymbolTable.isClear_initial, fun h => ?_, fun h => ?_, fun h => ?_⟩
  · exact absurd (htexts.1 _ _ (by decide) (by decide) h) (by decide)
  · exact absurd (htexts.2.1 _ _ (by decide) (by decide) h) (by decide)
  · exact absurd (htexts.2.2 _ _ (by decide) (by decide) h) (by decide)

end Printer

end ForwardChaining
