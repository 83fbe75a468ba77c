import Conjunct.Proofs.Commands
import Conjunct.Proofs.Files
import Conjunct.Proofs.Folding
import Conjunct.Proofs.Recognition

/-!
# Reading what is written

The text of a query is the query again when it is read, as long as it has a text at all: names have
to be identifiers, strings must not hold a quote, and what the grammar wants to be there has to be
there. Such queries are *well-formed* (`Query.WellFormed`). Reading yields no others, and minimizing
yields well-formed queries from well-formed ones.

**Theorem (`Query.read_render`).** A well-formed query is read from its text, with a newline behind
it or without, and only well-formed queries are read. A well-formed query without comparisons is
minimized to a well-formed one, so that the file that the minimizing command has written is read as
the minimized query.

What is written spells what it was written for, part by part (`termText_render` up to
`WellFormed.spelledBy_render`): the blanks of the text are layout, and nothing of it has to be read
backwards. The parsers read what is spelled (`Query.read_eq_ok_iff`). What the command hands over to
a file is what the file holds afterwards (`Storage.readText_writeText`).
-/

namespace Conjunct

open Grammar

/-! ## Well-formed queries -/

/-- A variable's name is an identifier, and a string holds no quote. -/
def Term.WellFormed : Term → Prop
  | .var v => IsIdentifier v.name
  | .const (.integer _) => True
  | .const (.string s) => '\'' ∉ s.toList

instance : DecidablePred Term.WellFormed
  | .var v => inferInstanceAs (Decidable (IsIdentifier v.name))
  | .const (.integer _) => inferInstanceAs (Decidable True)
  | .const (.string s) => inferInstanceAs (Decidable ('\'' ∉ s.toList))

/-- A name of a relation is an identifier. -/
structure Atom.WellFormed (a : Atom) : Prop where
  relation : IsIdentifier a.relation
  terms : ∀ t ∈ a.terms, t.WellFormed

structure Comparison.WellFormed (c : Comparison) : Prop where
  left : c.left.WellFormed
  right : c.right.WellFormed

def Literal.WellFormed : Literal → Prop
  | .atom a => a.WellFormed
  | .comparison c => c.WellFormed

/-- An aggregate has factors, and none is a string. -/
structure Aggregate.WellFormed (s : Aggregate) : Prop where
  factors_ne_nil : s.factors ≠ []
  factors : ∀ t ∈ s.factors, t.WellFormed
  no_string : ∀ t ∈ s.factors, Query.isStringConst t = false

def Grammar.HeadItem.WellFormed : HeadItem → Prop
  | .output v => IsIdentifier v.name
  | .sum factors => factors ≠ [] ∧ ∀ t ∈ factors, t.WellFormed

/-- All names are identifiers, no string holds a quote, the body has a literal, and an aggregate has
factors and no string among them. -/
structure Query.WellFormed (q : Query) : Prop where
  name : IsIdentifier q.head.name
  outputs : ∀ v ∈ q.head.outputs, IsIdentifier v.name
  sum : ∀ s ∈ q.head.sum?, s.WellFormed
  body_ne_nil : q.body ≠ []
  body : ∀ l ∈ q.body, l.WellFormed

instance (a : Atom) : Decidable a.WellFormed :=
  decidable_of_iff (IsIdentifier a.relation ∧ ∀ t ∈ a.terms, t.WellFormed)
    ⟨fun ⟨relation, terms⟩ => ⟨relation, terms⟩, fun ⟨relation, terms⟩ => ⟨relation, terms⟩⟩

instance (c : Comparison) : Decidable c.WellFormed :=
  decidable_of_iff (c.left.WellFormed ∧ c.right.WellFormed)
    ⟨fun ⟨left, right⟩ => ⟨left, right⟩, fun ⟨left, right⟩ => ⟨left, right⟩⟩

instance : DecidablePred Literal.WellFormed
  | .atom a => inferInstanceAs (Decidable a.WellFormed)
  | .comparison c => inferInstanceAs (Decidable c.WellFormed)

instance (s : Aggregate) : Decidable s.WellFormed :=
  decidable_of_iff
    (s.factors ≠ [] ∧ (∀ t ∈ s.factors, t.WellFormed) ∧
      ∀ t ∈ s.factors, Query.isStringConst t = false)
    ⟨fun ⟨hne, hfactors, hno⟩ => ⟨hne, hfactors, hno⟩,
      fun ⟨hne, hfactors, hno⟩ => ⟨hne, hfactors, hno⟩⟩

instance (q : Query) : Decidable q.WellFormed :=
  decidable_of_iff
    (IsIdentifier q.head.name ∧ (∀ v ∈ q.head.outputs, IsIdentifier v.name) ∧
      (∀ s ∈ q.head.sum?, s.WellFormed) ∧ q.body ≠ [] ∧ ∀ l ∈ q.body, l.WellFormed)
    ⟨fun ⟨hname, houtputs, hsum, hne, hbody⟩ => ⟨hname, houtputs, hsum, hne, hbody⟩,
      fun ⟨hname, houtputs, hsum, hne, hbody⟩ => ⟨hname, houtputs, hsum, hne, hbody⟩⟩

/-! ## What is written spells what it was written for -/

namespace Grammar

section Written

variable {α : Type} {R : Spelling α} {as : List α} {txt : α → String}

theorem isMark_comma : IsMark [','] (", " : String).toList :=
  ⟨[], [','], [' '], by decide, rfl, by decide, rfl⟩

theorem bracketed_joined (has : ∀ a ∈ as, R (txt a).toList a) :
    Bracketed R ("(" ++ Text.joined ", " (as.map txt) ++ ")").toList as := by
  cases as with
  | nil => simpa [Text.joined] using Bracketed.none (isMark_of ['(']) (isMark_of [')'])
  | cons a as =>
    have hlist := listed_joined isMark_comma (by simp) has
    simpa using Bracketed.some (isMark_of ['(']) hlist (isMark_of [')'])

end Written

theorem integerText_render (n : Integer) : IntegerText n.render n := by
  have hdigits : ∀ d ∈ Nat.toDigits 10 n.toInt.natAbs, Decimal.isDigit d = true :=
    fun _ => Decimal.isDigit_of_mem_toDigits
  have hvalue : Nat.ofDigitChars 10 (Nat.toDigits 10 n.toInt.natAbs) 0 = n.toInt.natAbs :=
    Nat.ofDigitChars_ten_toDigits
  unfold Integer.render
  split
  · next hneg => exact .negative Nat.toDigits_ne_nil hdigits (by omega)
  · next hpos => exact .positive Nat.toDigits_ne_nil hdigits (by omega)

theorem termText_render {a : Term} (h : a.WellFormed) : TermText a.render.toList a := by
  rcases a with v | n | s
  · exact .var ⟨rfl, h⟩
  · exact .integer (by simpa [Term.render, Constant.render] using integerText_render n)
  · exact .string ⟨by simp [Term.render, Constant.render], h⟩

theorem literalText_render {l : Literal} (h : l.WellFormed) : LiteralText l.render.toList l := by
  cases l with
  | atom a =>
    have hname : Around NameText a.relation.toList a.relation := around_of ⟨rfl, h.relation⟩
    have hterms : Bracketed (Around TermText) _ a.terms :=
      bracketed_joined fun t ht => around_of (termText_render (h.terms t ht))
    have hatom := LiteralText.atom hname hterms
    simpa [Literal.render, Atom.render, Term.renderAll] using hatom
  | comparison c =>
    have hop : Around ComparatorText (' ' :: (c.op.symbol.toList ++ [' '])) c.op :=
      ⟨[' '], _, [' '], by decide, rfl, by decide, rfl⟩
    have hcomparison := LiteralText.comparison (around_of (termText_render h.left)) hop
      (around_of (termText_render h.right))
    simpa [Literal.render, Comparison.render] using hcomparison

/-- The text of an item. -/
def HeadItem.render : HeadItem → String
  | output v => v.name
  | sum factors => Aggregate.render ⟨factors⟩

theorem itemText_render {item : HeadItem} (h : item.WellFormed) :
    ItemText item.render.toList item := by
  cases item with
  | output v => exact .output ⟨rfl, h⟩
  | sum factors =>
    obtain ⟨hne, hfactors⟩ := h
    have htimes : IsMark ['*'] (" * " : String).toList :=
      ⟨[' '], ['*'], [' '], by decide, rfl, by decide, rfl⟩
    have hproduct := listed_joined htimes hne fun t ht =>
      around_of (termText_render (hfactors t ht))
    have hsum := ItemText.sum (isMark_of ['(']) hproduct (isMark_of [')'])
    simpa [HeadItem.render, Aggregate.render, Term.renderAll] using hsum

theorem TermText.wellFormed {t : List Char} {a : Term} (h : TermText t a) : a.WellFormed := by
  cases h with
  | integer => trivial
  | string h => exact h.2
  | var h => exact h.2

theorem LiteralText.wellFormed {t : List Char} {l : Literal} (h : LiteralText t l) :
    l.WellFormed := by
  cases h with
  | atom hr hts => exact ⟨hr.imp (·.2), hts.forall_mem (·.imp TermText.wellFormed)⟩
  | comparison hl _ hr => exact ⟨hl.imp TermText.wellFormed, hr.imp TermText.wellFormed⟩

theorem ItemText.wellFormed {t : List Char} {item : HeadItem} (h : ItemText t item) :
    item.WellFormed := by
  cases h with
  | output h => exact h.2
  | sum _ hts => exact ⟨hts.ne_nil, hts.forall_mem (·.imp TermText.wellFormed)⟩

end Grammar

/-! ## Queries -/

/-- The items of a head, in the order in which they are written. -/
def Head.items (h : Head) : List HeadItem :=
  h.outputs.map .output ++ (h.sum?.map (.sum ∘ Aggregate.factors)).toList

namespace Query

variable {q : Query} {t v : List Char}

theorem WellFormed.items (h : q.WellFormed) : ∀ item ∈ q.head.items, item.WellFormed := by
  intro item hitem
  rcases List.mem_append.mp hitem with hmem | hmem
  · obtain ⟨v, hv, rfl⟩ := List.mem_map.mp hmem
    exact h.outputs v hv
  · obtain ⟨s, hs, rfl⟩ := Option.map_eq_some_iff.mp (Option.mem_toList.mp hmem)
    exact ⟨(h.sum s hs).factors_ne_nil, (h.sum s hs).factors⟩

theorem WellFormed.collects (h : q.WellFormed) : q.head.Collects q.head.items := by
  refine ⟨?_, ?_, fun s hs => (h.sum s hs).no_string⟩
  · cases hsum : q.head.sum? <;>
      simp [Head.items, hsum, List.filterMap_map, Function.comp_def, HeadItem.output?]
  · cases hsum : q.head.sum? <;>
      simp [Head.items, hsum, List.filterMap_map, Function.comp_def, HeadItem.factors?]

theorem render_items (h : Head) : h.items.map HeadItem.render =
    h.outputs.map Variable.name ++ (h.sum?.map Aggregate.render).toList := by
  cases hsum : h.sum? <;> simp [Head.items, hsum, HeadItem.render, Function.comp_def]

/-- What is written for a query spells it. -/
theorem WellFormed.spelledBy_render (h : q.WellFormed) : q.SpelledBy q.render.toList := by
  have hname : Around NameText q.head.name.toList q.head.name := around_of ⟨rfl, h.name⟩
  have hitems := bracketed_joined fun item hitem => around_of (itemText_render (h.items item hitem))
  have hmark : IsMark [':', '-'] (" :- " : String).toList :=
    ⟨[' '], [':', '-'], [' '], by decide, rfl, by decide, rfl⟩
  have hbody := listed_joined isMark_comma h.body_ne_nil fun l hl =>
    around_of (literalText_render (h.body l hl))
  have hrule := around_of (RuleText.mk hname hitems hmark hbody)
  refine ⟨q.head.items, ?_, h.collects⟩
  simpa [Query.render, Head.render, render_items] using hrule

theorem SpelledBy.append_layout (h : q.SpelledBy t) (hv : IsLayout v) : q.SpelledBy (t ++ v) := by
  obtain ⟨items, htext, hcollects⟩ := h
  exact ⟨items, htext.append_layout hv, hcollects⟩

/-- Only well-formed queries are spelled. -/
theorem SpelledBy.wellFormed (h : q.SpelledBy t) : q.WellFormed := by
  obtain ⟨items, ⟨_, core, _, -, hrule, -, -⟩, hcollects⟩ := h
  generalize hname : q.head.name = name at hrule
  generalize hbody : q.body = body at hrule
  cases hrule with
  | mk hn hitems _ hls =>
    have hitem : ∀ item ∈ items, item.WellFormed :=
      hitems.forall_mem (·.imp ItemText.wellFormed)
    have houtputs : ∀ v ∈ q.head.outputs, IsIdentifier v.name := by
      intro v hv
      rw [← hcollects.outputs, mem_filterMap_output?] at hv
      exact hitem _ hv
    have hsum : ∀ s ∈ q.head.sum?, s.WellFormed := by
      intro s hs
      have hmem : s.factors ∈ items.filterMap HeadItem.factors? := by
        rw [hcollects.sum, Option.mem_def.mp hs]
        simp
      obtain ⟨hne, hfactors⟩ := hitem _ (mem_filterMap_factors?.mp hmem)
      exact ⟨hne, hfactors, hcollects.factors s hs⟩
    exact ⟨hname ▸ hn.imp (·.2), houtputs, hsum, hbody ▸ hls.ne_nil,
      hbody ▸ hls.forall_mem (·.imp LiteralText.wellFormed)⟩

theorem wellFormed_of_read {text : String} (h : read text = .ok q) : q.WellFormed :=
  (read_eq_ok_iff.mp h).wellFormed

/-- Minimizing takes literals away, but not all. -/
theorem WellFormed.reduce (h : q.WellFormed) (hcs : q.comparisons = []) :
    q.reduce.1.WellFormed := by
  have hfolds := foldsOnto_reduce q
  refine ⟨?_, ?_, ?_, ?_, fun l hl => h.body l (hfolds.body.subset hl)⟩
  · rw [hfolds.head]
    exact h.name
  · rw [hfolds.head]
    exact h.outputs
  · rw [hfolds.head]
    exact h.sum
  · obtain ⟨l, hl⟩ := List.exists_mem_of_ne_nil _ h.body_ne_nil
    cases l with
    | comparison c =>
      have hc : c ∈ q.comparisons := List.mem_filterMap.mpr ⟨_, hl, rfl⟩
      rw [hcs] at hc
      cases hc
    | atom a =>
      obtain ⟨σ, -, hσ⟩ := hfolds.onto
      exact List.ne_nil_of_mem (mem_atoms.mp (hσ a (mem_atoms.mpr hl)))

theorem WellFormed.read_line (h : q.WellFormed) : read (q.render ++ "\n") = .ok q := by
  refine read_eq_ok_iff.mpr ?_
  rw [String.toList_append]
  exact h.spelledBy_render.append_layout (by decide)

/-- **Reading undoes writing.** A well-formed query is read from its text, and no query is read that
is not well-formed. The command that minimizes the query of a file ends in the files that writing
the text of the minimized query results in. If its output is a file, then this file holds the text
afterwards, and what it holds is read as the minimized query. -/
theorem read_render :
    (∀ q : Query, q.WellFormed → read q.render = .ok q ∧ read (q.render ++ "\n") = .ok q) ∧
    (∀ (text : String) (q : Query), read text = .ok q → q.WellFormed) ∧
    (∀ q : Query, q.WellFormed → q.comparisons = [] →
      ∃ minimized removals, q.minimize = .ok (minimized, removals) ∧ minimized.WellFormed ∧
        read (minimized.render ++ "\n") = .ok minimized) ∧
    ∀ (s : Session) (input output : Path) (text : String) (q : Query),
      s.storage.readText input = .ok text → read text = .ok q → q.comparisons = [] →
      ∃ minimized removals, q.minimize = .ok (minimized, removals) ∧
        read (minimized.render ++ "\n") = .ok minimized ∧
        (∀ storage, s.storage.writeText output (minimized.render ++ "\n") = .ok storage →
          ∃ log, (CommandM.minimizeFile input output).run s =
            (.ok minimized, ⟨storage, log, s.printed⟩)) ∧
        ∀ (number : Nat) (opened : Storage), s.storage.Backed →
          s.storage.create output = .ok (.file number, opened) →
          ∃ s' written, (CommandM.minimizeFile input output).run s = (.ok minimized, s') ∧
            s'.storage.readText output = .ok written ∧ written = minimized.render ++ "\n" ∧
            read written = .ok minimized := by
  refine ⟨?_, fun text q => wellFormed_of_read, ?_, ?_⟩
  · intro q h
    exact ⟨read_eq_ok_iff.mpr h.spelledBy_render, h.read_line⟩
  · intro q h hcs
    have hreduce := h.reduce hcs
    exact ⟨_, _, minimize_eq_ok hcs, hreduce, hreduce.read_line⟩
  · intro s input output text q htext hq hcs
    have hline := ((wellFormed_of_read hq).reduce hcs).read_line
    have hrun {storage} (hwrite : s.storage.writeText output _ = .ok storage) :=
      CommandM.run_minimizeFile htext hq (minimize_eq_ok hcs) hwrite
    refine ⟨_, _, minimize_eq_ok hcs, hline, fun _ => hrun, fun number opened hbacked hcreate => ?_⟩
    obtain ⟨storage, hwrite, hwritten⟩ := Storage.readText_writeText hbacked hcreate _
    obtain ⟨log, hlog⟩ := hrun hwrite
    exact ⟨_, _, hlog, hwritten, rfl, hline⟩

/-- A query whose variables have names like the aggregate's, with the least of all integers and a
string that looks like the text around it. -/
def sums : Query :=
  ⟨⟨"SUM", [⟨"SUM"⟩, ⟨"SUMs"⟩], some ⟨[.var ⟨"SUM"⟩, .const (.integer Int64.minValue)]⟩⟩,
    [.atom ⟨"R", [.var ⟨"SUM"⟩, .var ⟨"SUMs"⟩, .const (.string "), :-\n x < 1")]⟩,
      .comparison ⟨.const (.integer (-1)), .le, .var ⟨"SUMs"⟩⟩]⟩

example : sums.render =
    "SUM(SUM, SUMs, SUM(SUM * -9223372036854775808)) :- " ++
      "R(SUM, SUMs, '), :-\n x < 1'), -1 <= SUMs" := by
  decide +kernel

/-- A query with the same head whose second atom can be taken away. -/
def sumsTwice : Query :=
  ⟨sums.head, [.atom ⟨"R", [.var ⟨"SUM"⟩, .var ⟨"SUMs"⟩]⟩, .atom ⟨"R", [.var ⟨"SUM"⟩, .var ⟨"y"⟩]⟩]⟩

/-- A storage with one file, `in`. -/
def storageWith (text : String) : Storage :=
  ⟨[(["in"], .file 0)], #[text.toUTF8], []⟩

theorem readText_storageWith (text : String) : (storageWith text).readText "in" = .ok text :=
  Storage.readText_of_find rfl rfl

theorem read_render_sums :
    (sums.WellFormed ∧ read sums.render = .ok sums ∧ read (sums.render ++ "\n") = .ok sums) ∧
    (∃ text, read text = .ok sums ∧ sums.WellFormed) ∧
    (sumsTwice.WellFormed ∧ sumsTwice.comparisons = [] ∧
      ∃ minimized removals, sumsTwice.minimize = .ok (minimized, removals) ∧
        minimized.WellFormed ∧ read (minimized.render ++ "\n") = .ok minimized) ∧
    ∃ minimized storage log, read (minimized.render ++ "\n") = .ok minimized ∧
      (storageWith sumsTwice.render).writeText "out" (minimized.render ++ "\n") = .ok storage ∧
      (CommandM.minimizeFile "in" "out").run ⟨storageWith sumsTwice.render, Log.empty, ""⟩ =
        (.ok minimized, ⟨storage, log, ""⟩) ∧
      storage.readText "out" = .ok (minimized.render ++ "\n") := by
  obtain ⟨hread, hwellFormed, hminimize, hcommand⟩ := read_render
  have hsums := hread sums (by decide)
  have htwice : sumsTwice.WellFormed := by decide
  refine ⟨⟨by decide, hsums⟩, ⟨_, hsums.1, hwellFormed _ _ hsums.1⟩,
    ⟨htwice, rfl, hminimize sumsTwice htwice rfl⟩, ?_⟩
  obtain ⟨minimized, removals, -, hline, hrun, hfile⟩ :=
    hcommand ⟨storageWith sumsTwice.render, Log.empty, ""⟩ "in" "out" sumsTwice.render sumsTwice
      (readText_storageWith _) (hread sumsTwice htwice).1 rfl
  obtain ⟨storage, hwrite⟩ : ∃ storage, (storageWith sumsTwice.render).writeText "out"
      (minimized.render ++ "\n") = .ok storage := ⟨_, rfl⟩
  obtain ⟨opened, hcreate⟩ :
      ∃ opened, (storageWith sumsTwice.render).create "out" = .ok (.file 1, opened) := ⟨_, rfl⟩
  obtain ⟨log, hlog⟩ := hrun storage hwrite
  obtain ⟨s', written, hrun', hwritten, rfl, -⟩ :=
    hfile 1 opened (Storage.backed_of_listed (by decide)) hcreate
  cases hlog.symm.trans hrun'
  exact ⟨minimized, storage, log, hline, hwrite, hlog, hwritten⟩

end Query

end Conjunct
