import Conjunct.Query.Reader

/-!
# Texts that spell queries

The grammar as a relation between texts and what they spell. It says which texts there are and not
how they are read: no reading is tried before another, and no layout belongs to one token rather
than to the next.

Layout may stand on either side of a token. A text of two parts is the one text after the other, so
the layout between two tokens is what the first has behind it and the second has in front.

The items of a head become variables and an aggregate (`Head.Collects`); where the aggregate stands
among the variables is lost.
-/

namespace Conjunct

/-- A letter or an underscore, then letters, digits and underscores. -/
def IsIdentifier (s : String) : Prop :=
  ∃ c cs, s.toList = c :: cs ∧ Grammar.isNameStart c = true ∧
    ∀ d ∈ cs, Grammar.isNameChar d = true

open Grammar in
instance : DecidablePred IsIdentifier := fun s =>
  match h : s.toList with
  | [] => .isFalse (by rintro ⟨c, cs, hcs, -⟩; simp [h] at hcs)
  | c :: cs =>
    decidable_of_iff (isNameStart c = true ∧ cs.all isNameChar = true) <| by
      constructor
      · intro ⟨hc, hcs⟩
        exact ⟨c, cs, h, hc, List.all_eq_true.mp hcs⟩
      · intro ⟨d, ds, heq, hd, hds⟩
        cases h.symm.trans heq
        exact ⟨hd, List.all_eq_true.mpr hds⟩

namespace Grammar

/-- Which texts spell which values. -/
abbrev Spelling (α : Type) := List Char → α → Prop

/-! ## Layout, marks and lists -/

section Parts

variable {α : Type}

/-- A text of nothing but layout. -/
def IsLayout (t : List Char) : Prop :=
  ∀ c ∈ t, Parser.isLayout c = true

instance : DecidablePred IsLayout :=
  fun t => decidable_of_iff (t.all Parser.isLayout = true) List.all_eq_true

/-- A text with layout on either side. -/
def Around (R : Spelling α) : Spelling α := fun t a =>
  ∃ u core v, IsLayout u ∧ R core a ∧ IsLayout v ∧ t = u ++ (core ++ v)

/-- A mark of punctuation with layout on either side. -/
def IsMark (w t : List Char) : Prop :=
  Around (fun core (_ : Unit) => core = w) t ()

/-- One or more elements with a mark between neighbours. -/
inductive Listed (sep : Char) (R : Spelling α) : Spelling (List α)
  | single {t : List Char} {a : α} : R t a → Listed sep R t [a]
  | cons {t s ts : List Char} {a : α} {as : List α} :
      R t a → IsMark [sep] s → Listed sep R ts as → Listed sep R (t ++ (s ++ ts)) (a :: as)

/-- A bracketed list, which may be empty. -/
inductive Bracketed (R : Spelling α) : Spelling (List α)
  | none {l r : List Char} : IsMark ['('] l → IsMark [')'] r → Bracketed R (l ++ r) []
  | some {l t r : List Char} {as : List α} :
      IsMark ['('] l → Listed ',' R t as → IsMark [')'] r → Bracketed R (l ++ (t ++ r)) as

end Parts

section Facts

variable {α : Type} {R : Spelling α} {P : α → Prop} {sep : Char} {t v : List Char} {a : α}
  {as : List α}

theorem around_of (h : R t a) : Around R t a :=
  ⟨[], t, [], by decide, h, by decide, by simp⟩

theorem isMark_of (w : List Char) : IsMark w w :=
  around_of (R := fun core (_ : Unit) => core = w) rfl

theorem Around.append_layout (h : Around R t a) (hv : IsLayout v) : Around R (t ++ v) a := by
  obtain ⟨u, core, v', hu, hcore, hv', rfl⟩ := h
  refine ⟨u, core, v' ++ v, hu, hcore, ?_, by simp⟩
  exact fun c hc => (List.mem_append.mp hc).elim (hv' c) (hv c)

theorem Around.imp (h : Around R t a) (hR : ∀ {t a}, R t a → P a) : P a := by
  obtain ⟨_, _, _, -, h, -, -⟩ := h
  exact hR h

theorem Listed.ne_nil (h : Listed sep R t as) : as ≠ [] := by
  cases h <;> simp

theorem Listed.forall_mem (h : Listed sep R t as) (hR : ∀ {t a}, R t a → P a) : ∀ a ∈ as, P a := by
  induction h with
  | single ha => simpa using hR ha
  | cons ha _ _ ih => exact List.forall_mem_cons.mpr ⟨hR ha, ih⟩

theorem Listed.map {β : Type} {S : Spelling β} {f : α → β} (h : Listed sep R t as)
    (hf : ∀ {t a}, R t a → S t (f a)) : Listed sep S t (as.map f) := by
  induction h with
  | single ha => exact .single (hf ha)
  | cons ha hs _ ih => exact .cons (hf ha) hs ih

/-- Texts in a row with separators spell a list. -/
theorem listed_joined {txt : α → String} {between : String} (hbetween : IsMark [sep] between.toList)
    (hne : as ≠ []) (has : ∀ a ∈ as, R (txt a).toList a) :
    Listed sep R (Text.joined between (as.map txt)).toList as := by
  induction as with
  | nil => exact absurd rfl hne
  | cons a as ih =>
    cases as with
    | nil => exact .single (has a (by simp))
    | cons b as =>
      have hlist := ih (by simp) fun c hc => has c (by simp [hc])
      simpa [Text.joined] using Listed.cons (has a (by simp)) hbetween hlist

theorem Bracketed.forall_mem (h : Bracketed R t as) (hR : ∀ {t a}, R t a → P a) :
    ∀ a ∈ as, P a := by
  cases h with
  | none => simp
  | some _ ht => exact ht.forall_mem hR

end Facts

/-! ## Tokens -/

/-- A name is spelled by itself. -/
def NameText : Spelling String := fun t s =>
  t = s.toList ∧ IsIdentifier s

/-- An integer is spelled by one or more digits, after a minus sign if it is to be negated. -/
inductive IntegerText : Spelling Integer
  | positive {ds : List Char} {n : Integer} :
      ds ≠ [] → (∀ d ∈ ds, Decimal.isDigit d = true) → n.toInt = Nat.ofDigitChars 10 ds 0 →
      IntegerText ds n
  | negative {ds : List Char} {n : Integer} :
      ds ≠ [] → (∀ d ∈ ds, Decimal.isDigit d = true) → n.toInt = -Nat.ofDigitChars 10 ds 0 →
      IntegerText ('-' :: ds) n

/-- A string without quotes is spelled by itself between two of them. -/
def StringText : Spelling String := fun t s =>
  t = '\'' :: (s.toList ++ ['\'']) ∧ '\'' ∉ s.toList

/-- A term: an integer, a string, or the name of a variable. -/
inductive TermText : Spelling Term
  | integer {t : List Char} {n : Integer} : IntegerText t n → TermText t (.const (.integer n))
  | string {t : List Char} {s : String} : StringText t s → TermText t (.const (.string s))
  | var {t : List Char} {v : Variable} : NameText t v.name → TermText t (.var v)

/-- A comparator is spelled by its symbol. -/
def ComparatorText : Spelling Comparator := fun t op =>
  t = op.symbol.toList

/-! ## Rules -/

/-- A literal: a relation name with a bracketed list of terms, or two terms with a comparator
between them. -/
inductive LiteralText : Spelling Literal
  | atom {r ts : List Char} {a : Atom} :
      Around NameText r a.relation → Bracketed (Around TermText) ts a.terms →
      LiteralText (r ++ ts) (.atom a)
  | comparison {l o r : List Char} {c : Comparison} :
      Around TermText l c.left → Around ComparatorText o c.op → Around TermText r c.right →
      LiteralText (l ++ (o ++ r)) (.comparison c)

/-- An item of a head: a variable, or `SUM` and a bracketed product of terms. -/
inductive ItemText : Spelling HeadItem
  | output {t : List Char} {v : Variable} : NameText t v.name → ItemText t (.output v)
  | sum {l ts r : List Char} {factors : List Term} :
      IsMark ['('] l → Listed '*' (Around TermText) ts factors → IsMark [')'] r →
      ItemText (['S', 'U', 'M'] ++ (l ++ (ts ++ r))) (.sum factors)

/-- A rule: a name with a bracketed list of items, the mark `:-`, and one or more literals. -/
inductive RuleText : Spelling (String × List HeadItem × List Literal)
  | mk {n is m ls : List Char} {name : String} {items : List HeadItem} {body : List Literal} :
      Around NameText n name → Bracketed (Around ItemText) is items → IsMark [':', '-'] m →
      Listed ',' (Around LiteralText) ls body →
      RuleText (n ++ (is ++ (m ++ ls))) (name, items, body)

/-! ## Queries -/

/-- The variable that an item is. -/
def HeadItem.output? : HeadItem → Option Variable
  | output v => some v
  | sum _ => none

/-- The factors of the aggregate that an item is. -/
def HeadItem.factors? : HeadItem → Option (List Term)
  | output _ => none
  | sum factors => some factors

theorem mem_filterMap_output? {v : Variable} {items : List HeadItem} :
    v ∈ items.filterMap HeadItem.output? ↔ .output v ∈ items := by
  simp only [List.mem_filterMap]
  constructor
  · rintro ⟨item, hmem, hitem⟩
    cases item <;> cases hitem
    exact hmem
  · intro hmem
    exact ⟨_, hmem, rfl⟩

theorem mem_filterMap_factors? {factors : List Term} {items : List HeadItem} :
    factors ∈ items.filterMap HeadItem.factors? ↔ .sum factors ∈ items := by
  simp only [List.mem_filterMap]
  constructor
  · rintro ⟨item, hmem, hitem⟩
    cases item <;> cases hitem
    exact hmem
  · intro hmem
    exact ⟨_, hmem, rfl⟩

end Grammar

/-- A head has the variables of a list of items, and the aggregate of the list if there is one. -/
structure Head.Collects (h : Head) (items : List Grammar.HeadItem) : Prop where
  outputs : items.filterMap Grammar.HeadItem.output? = h.outputs
  /-- There is at most one aggregate. -/
  sum : items.filterMap Grammar.HeadItem.factors? = h.sum?.toList.map Aggregate.factors
  /-- No factor is a string. -/
  factors : ∀ s ∈ h.sum?, ∀ t ∈ s.factors, Query.isStringConst t = false

/-- A text spells a query. -/
def Query.SpelledBy (q : Query) (t : List Char) : Prop :=
  ∃ items, Grammar.Around Grammar.RuleText t (q.head.name, items, q.body) ∧ q.head.Collects items

end Conjunct
