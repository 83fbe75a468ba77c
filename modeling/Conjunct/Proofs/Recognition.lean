import Conjunct.Proofs.Tokens
import Mathlib.Control.Monad.Basic

/-!
# Queries are read as they are spelled

**Theorem (`Query.read_exact`).** Exactly the texts that spell a query are read as this query, and
no text spells two queries.

From left to right, each parser is sound for its rule of the grammar. From right to left, the
alternative that is tried first fails on what the other one spells: an atom on a comparison, because
no bracket comes second (`exists_error_atom`), and an aggregate on a variable, even one whose name
begins with `SUM`, because no bracket follows (`exists_error_aggregate`).
-/

namespace Conjunct

namespace Grammar

open Conjunct.Parser (Followed Begins Reads Sound skipLayout)

variable {c : Char} {t rest : List Char}

/-! ## Literals -/

theorem sound_literal : literal.Sound LiteralText := by
  have hatom : atom.Sound fun t a => LiteralText t (.atom a) := by
    refine (sound_name.spaced.pair sound_term.bracketed).map ?_
    rintro t ⟨relation, terms⟩ ⟨t₁, t₂, hname, hterms, rfl⟩
    exact .atom hname hterms
  have hcomparison : comparison.Sound fun t c => LiteralText t (.comparison c) := by
    refine (sound_term.spaced.pair (sound_comparator.spaced.pair sound_term.spaced)).map ?_
    rintro t ⟨left, op, right⟩ ⟨t₁, t₂, hleft, ⟨t₃, t₄, hop, hright, rfl⟩, rfl⟩
    exact .comparison hleft hop hright
  exact (hatom.map fun _ _ h => h).orElse (hcomparison.map fun _ _ h => h)

/-- A closing bracket is no term. -/
theorem exists_error_term (text : List Char) : ∃ stop, term.run (')' :: text) = .error stop :=
  ⟨_, rfl⟩

theorem run_atom {r ts : List Char} {a : Atom} (hr : Around NameText r a.relation)
    (hts : Bracketed (Around TermText) ts a.terms) (rest : List Char) :
    atom.run (skipLayout (r ++ ts ++ rest)) = .ok (a, skipLayout rest) := by
  rw [List.append_assoc]
  have hname := reads_name.run_spaced hr (Parser.followed_bracketed hts (by decide) rest)
  have hterms := reads_term.run_bracketed (by decide) (by decide) exists_error_term hts rest
  exact Parser.run_map_of_ok _ (Parser.run_pair_eq_ok_iff.mpr ⟨_, hname, hterms⟩)

theorem run_comparison {l o r : List Char} {c : Comparison} (hl : Around TermText l c.left)
    (ho : Around ComparatorText o c.op) (hr : Around TermText r c.right)
    (hrest : AtBoundary rest) :
    comparison.run (skipLayout (l ++ (o ++ r) ++ rest)) = .ok (c, skipLayout rest) := by
  rw [List.append_assoc, List.append_assoc]
  have hleft := reads_term.run_spaced hl <| Parser.followed_around
    (begins_comparatorText.mono endsWord_of_beginsComparator) ho (r ++ rest)
  have hop := reads_comparator.run_spaced ho <| Parser.followed_around
    (begins_termText.mono fun _ h => ne_of_beginsTerm h (by decide)) hr rest
  have hright := run_spaced_term hr hrest
  exact Parser.run_map_of_ok _ (Parser.run_pair_eq_ok_iff.mpr
    ⟨_, hleft, Parser.run_pair_eq_ok_iff.mpr ⟨_, hop, hright⟩⟩)

/-- No comparison is read as an atom: it does not begin with a name, or no bracket comes second. -/
theorem exists_error_atom {l o : List Char} {c : Comparison} (hl : Around TermText l c.left)
    (ho : Around ComparatorText o c.op) (rest : List Char) :
    ∃ stop, atom.run (skipLayout (l ++ (o ++ rest))) = .error stop := by
  cases hrun : atom.run (skipLayout (l ++ (o ++ rest))) with
  | error stop => exact ⟨stop, rfl⟩
  | ok found =>
    exfalso
    obtain ⟨⟨relation, terms⟩, hpair, -⟩ := Parser.run_map_eq_ok_iff.mp hrun
    obtain ⟨middle, hname, hterms⟩ := Parser.run_pair_eq_ok_iff.mp hpair
    obtain ⟨n, htext, hn⟩ := sound_name.spaced hname
    have hplace : skipLayout (l ++ (o ++ rest)) = skipLayout (n ++ middle) := by
      rw [← htext, Parser.skipLayout_skipLayout]
    obtain ⟨u, core, v, hu, hcore, hv, rfl⟩ := hl
    generalize c.left = left at hcore
    cases hcore with
    | integer h =>
      exact begins_nameText.disjoint begins_integerText
        (fun _ => not_beginsInteger_of_isNameStart) hn ⟨u, core, v, hu, h, hv, rfl⟩ hplace.symm
    | string h =>
      refine begins_nameText.disjoint begins_stringText ?_ hn ⟨u, core, v, hu, h, hv, rfl⟩
        hplace.symm
      rintro _ hd rfl
      exact absurd hd (by decide)
    | var h =>
      have hname' := reads_name.run_spaced ⟨u, core, v, hu, h, hv, rfl⟩
        (Parser.followed_around (begins_comparatorText.mono endsWord_of_beginsComparator) ho rest)
      rw [hname] at hname'
      cases hname'
      obtain ⟨b, hmiddle, hb⟩ := sound_term.bracketed hterms
      obtain ⟨bracket, inner, hbracket, rfl⟩ := Parser.exists_mark_bracketed hb
      have hbeside : skipLayout (o ++ rest) = skipLayout (bracket ++ (inner ++ found.2)) := by
        rw [← Parser.skipLayout_skipLayout (o ++ rest), hmiddle, List.append_assoc]
      refine begins_comparatorText.disjoint (Parser.begins_mark (by decide)) ?_ ho hbracket hbeside
      rintro _ hd rfl
      exact absurd hd (by decide)

theorem run_literal {l : Literal} (h : LiteralText t l) (hrest : AtBoundary rest) :
    literal.run (skipLayout (t ++ rest)) = .ok (l, skipLayout rest) := by
  cases h with
  | atom hr hts => exact Parser.run_orElse_of_ok _ (Parser.run_map_of_ok _ (run_atom hr hts rest))
  | @comparison l o r c hl ho hr =>
    have hcomparison := run_comparison hl ho hr hrest
    obtain ⟨stop, hatom⟩ := exists_error_atom hl ho (r ++ rest)
    rw [List.append_assoc, List.append_assoc] at hcomparison ⊢
    rw [literal, Parser.run_orElse_of_error _ (Parser.run_map_of_error _ hatom)]
    exact Parser.run_map_of_ok _ hcomparison

theorem reads_literal : literal.Reads LiteralText EndsWord := by
  intro t rest a h hrest
  exact ⟨skipLayout rest, run_literal h (atBoundary_of_followed hrest),
    Parser.skipLayout_skipLayout rest⟩

/-! ## Items -/

/-- The characters that end an item: a comma or the closing bracket. -/
def EndsItem (c : Char) : Prop :=
  c = ',' ∨ c = ')'

instance : DecidablePred EndsItem :=
  fun c => inferInstanceAs (Decidable (c = ',' ∨ c = ')'))

theorem endsWord_of_endsItem : ∀ c, EndsItem c → EndsWord c := by
  rintro _ (rfl | rfl) <;> decide

theorem begins_itemText : Begins ItemText fun c => isNameStart c = true := by
  intro t a h
  cases h with
  | output h => exact begins_nameText h
  | sum => exact ⟨_, _, rfl, by decide, by decide⟩

theorem sound_headItem : headItem.Sound ItemText := by
  have haggregate : aggregate.Sound fun t factors => ItemText t (.sum factors) := by
    intro text rest factors h
    obtain ⟨middle, hword, hproduct⟩ := Parser.run_skipThen_eq_ok_iff.mp h
    obtain ⟨t, hmiddle, l, ts, r, hl, hts, hr, rfl⟩ :=
      (sound_term.spaced.listOf '*').between hproduct
    refine ⟨['S', 'U', 'M'] ++ (l ++ (ts ++ r)), ?_, .sum hl hts hr⟩
    rw [Parser.run_word_eq_ok_iff.mp hword, hmiddle]
    simp
  exact (haggregate.map fun _ _ h => h).orElse (sound_name.map fun _ _ h => .output h)

theorem run_aggregate {l ts r : List Char} {factors : List Term} (hl : IsMark ['('] l)
    (hts : Listed '*' (Around TermText) ts factors) (hr : IsMark [')'] r) (rest : List Char) :
    aggregate.run (['S', 'U', 'M'] ++ (l ++ (ts ++ r)) ++ rest) =
      .ok (factors, skipLayout rest) := by
  have hproduct := reads_term.run_listOf (by decide) (by decide) hts
    (Parser.followed_mark hr (by decide) ⟨by decide, by decide⟩ rest)
  refine Parser.run_skipThen_eq_ok_iff.mpr ⟨l ++ (ts ++ r) ++ rest, ?_, ?_⟩
  · exact Parser.run_word_eq_ok_iff.mpr (List.append_assoc ..)
  · exact Parser.run_between hl hr hproduct

theorem isNameChar_of_nameText {s : String} (h : NameText t s) : ∀ c ∈ t, isNameChar c = true := by
  obtain ⟨rfl, c, cs, hcs, hc, hmem⟩ := h
  rw [hcs]
  exact List.forall_mem_cons.mpr ⟨isNameChar_of_isNameStart hc, hmem⟩

/-- If a variable has a name that begins with a word, the rest of the name is behind the word. -/
theorem exists_suffix_of_word {s : String} {w m : List Char} (h : NameText t s)
    (hrest : Followed EndsWord rest) (hw : w.all isNameChar = true)
    (htext : t ++ rest = w ++ m) : ∃ bs, (∀ b ∈ bs, isNameChar b = true) ∧ m = bs ++ rest := by
  rcases List.append_eq_append_iff.mp htext with ⟨as, rfl, rfl⟩ | ⟨bs, rfl, hm⟩
  · cases as with
    | nil => exact ⟨[], by simp, rfl⟩
    | cons a as =>
      have hend : isNameChar a = false := atBoundary_of_followed hrest a rfl
      simp [List.all_eq_true.mp hw a (by simp)] at hend
  · exact ⟨bs, fun b hb => isNameChar_of_nameText h b (by simp [hb]), hm⟩

/-- No variable is read as an aggregate, whatever its name: no bracket follows it. -/
theorem exists_error_aggregate {s : String} (h : NameText t s) (hrest : Followed EndsItem rest) :
    ∃ stop, aggregate.run (t ++ rest) = .error stop := by
  cases hrun : aggregate.run (t ++ rest) with
  | error stop => exact ⟨stop, rfl⟩
  | ok found =>
    exfalso
    obtain ⟨m, hword, hproduct⟩ := Parser.run_skipThen_eq_ok_iff.mp hrun
    obtain ⟨before, hproduct, -⟩ := Parser.run_thenSkip_eq_ok_iff.mp hproduct
    obtain ⟨after, hopen, -⟩ := Parser.run_skipThen_eq_ok_iff.mp hproduct
    obtain ⟨l, hl, hmark⟩ := Parser.exists_mark_of_run hopen
    obtain ⟨bs, hbs, hm⟩ := exists_suffix_of_word h (hrest.mono endsWord_of_endsItem) (by decide)
      (Parser.run_word_eq_ok_iff.mp hword)
    obtain ⟨c, hc, rfl⟩ :=
      Parser.exists_head_around (Parser.begins_mark (by decide)) hmark after
    rw [← hl, hm] at hc
    cases bs with
    | nil => exact absurd (hrest '(' hc) (by decide)
    | cons b bs =>
      have hb := hbs b (by simp)
      rw [List.cons_append, Parser.skipLayout_cons (isLayout_of_isNameChar hb)] at hc
      cases hc
      exact absurd hb (by decide)

theorem reads_headItem : headItem.Reads ItemText EndsItem := by
  refine Parser.reads_of_run begins_itemText fun t rest a h hrest => ?_
  cases h with
  | output h =>
    obtain ⟨stop, haggregate⟩ := exists_error_aggregate h hrest
    have hname := run_name h (atBoundary_of_followed (hrest.mono endsWord_of_endsItem))
    refine ⟨rest, ?_, rfl⟩
    rw [headItem, Parser.run_orElse_of_error _ (Parser.run_map_of_error _ haggregate)]
    exact Parser.run_map_of_ok _ hname
  | sum hl hts hr =>
    have haggregate := run_aggregate hl hts hr rest
    exact ⟨skipLayout rest, Parser.run_orElse_of_ok _ (Parser.run_map_of_ok _ haggregate),
      Parser.skipLayout_skipLayout rest⟩

/-- A closing bracket is no item. -/
theorem exists_error_headItem (text : List Char) :
    ∃ stop, headItem.run (')' :: text) = .error stop :=
  ⟨_, rfl⟩

/-! ## Rules -/

theorem sound_rule : rule.Sound RuleText := by
  have hhead := sound_name.spaced.pair sound_headItem.bracketed
  have hbody : ((Parser.mark [':', '-']).skipThen (Parser.listOf ',' (Parser.spaced literal))).Sound
      fun t body => ∃ m ls, IsMark [':', '-'] m ∧ Listed ',' (Around LiteralText) ls body ∧
        t = m ++ ls := by
    intro text rest body h
    obtain ⟨middle, hmark, hlist⟩ := Parser.run_skipThen_eq_ok_iff.mp h
    obtain ⟨m, rfl, hm⟩ := Parser.exists_mark_of_run hmark
    obtain ⟨ls, rfl, hls⟩ := sound_literal.spaced.listOf ',' hlist
    exact ⟨m ++ ls, (List.append_assoc ..).symm, m, ls, hm, hls, rfl⟩
  refine (hhead.pair hbody).map ?_
  rintro _ ⟨⟨name, items⟩, body⟩
    ⟨_, _, ⟨n, is, hname, hitems, rfl⟩, ⟨m, ls, hmark, hlist, rfl⟩, rfl⟩
  rw [List.append_assoc]
  exact .mk hname hitems hmark hlist

/-- In front of a body, a head is read whatever becomes of the body. -/
theorem run_rule {n is m text : List Char} {name : String} {items : List HeadItem}
    {body : List Literal} (hname : Around NameText n name)
    (hitems : Bracketed (Around ItemText) is items) (hmark : IsMark [':', '-'] m)
    (hbody : (Parser.listOf ',' (Parser.spaced literal)).run (skipLayout text) =
      .ok (body, rest)) :
    rule.run (skipLayout (n ++ (is ++ (m ++ text)))) = .ok ((name, items, body), rest) := by
  have hnameRun := reads_name.run_spaced hname
    (Parser.followed_bracketed hitems (by decide) (m ++ text))
  have hitemsRun := reads_headItem.run_bracketed (by decide) (by decide) exists_error_headItem
    hitems (m ++ text)
  have hmarkRun := Parser.run_mark hmark (by decide) text
  rw [Parser.mark, ← Parser.run_spaced_skipLayout] at hmarkRun
  have hhead := Parser.run_pair_eq_ok_iff.mpr ⟨_, hnameRun, hitemsRun⟩
  have hafter := Parser.run_skipThen_eq_ok_iff.mpr ⟨_, hmarkRun, hbody⟩
  exact Parser.run_map_of_ok _ (Parser.run_pair_eq_ok_iff.mpr ⟨_, hhead, hafter⟩)

theorem reads_rule : rule.Reads RuleText fun c => c ≠ ',' ∧ EndsWord c := by
  intro t rest found h hrest
  refine ⟨skipLayout rest, ?_, Parser.skipLayout_skipLayout rest⟩
  cases h with
  | mk hname hitems hmark hlist =>
    have hbody := reads_literal.run_listOf (by decide) (by decide) hlist hrest
    simp only [List.append_assoc]
    exact run_rule hname hitems hmark hbody

/-- A text spells at most one rule. -/
theorem ruleText_unique {found found' : String × List HeadItem × List Literal}
    (h : Around RuleText t found) (h' : Around RuleText t found') : found = found' := by
  have hrun := (Parser.complete_spaced_eq_ok_iff sound_rule reads_rule).mpr h
  have hrun' := (Parser.complete_spaced_eq_ok_iff sound_rule reads_rule).mpr h'
  exact Except.ok.inj (hrun.symm.trans hrun')

theorem exists_isNameStart_of_ruleText {found : String × List HeadItem × List Literal}
    (h : RuleText t found) : ∃ c ∈ t, isNameStart c = true := by
  obtain ⟨⟨u, core, v, -, hname, -, rfl⟩, -, -, -⟩ := h
  obtain ⟨c, w, rfl, -, hc⟩ := begins_nameText hname
  exact ⟨c, by simp, hc⟩

end Grammar

/-! ## Queries -/

namespace Query

open Grammar (HeadItem)

/-- What a head becomes by further items, if it becomes anything. -/
theorem foldlM_addItem_eq_ok_iff {items : List HeadItem} {h₀ h : Head} :
    items.foldlM addItem h₀ = .ok h ↔
      h₀.name = h.name ∧
      h₀.outputs ++ items.filterMap HeadItem.output? = h.outputs ∧
      h₀.sum?.toList.map Aggregate.factors ++ items.filterMap HeadItem.factors? =
        h.sum?.toList.map Aggregate.factors ∧
      ∀ factors ∈ items.filterMap HeadItem.factors?, ∀ t ∈ factors, isStringConst t = false := by
  induction items generalizing h₀ with
  | nil =>
    obtain ⟨name₀, outputs₀, sum₀⟩ := h₀
    obtain ⟨name, outputs, sum⟩ := h
    rcases sum₀ with - | ⟨⟨factors₀⟩⟩ <;> rcases sum with - | ⟨⟨factors⟩⟩ <;>
      simp [pure, Except.pure]
  | cons item items ih =>
    rw [List.foldlM_cons]
    cases item with
    | output v =>
      have houtputs : (HeadItem.output v :: items).filterMap HeadItem.output? =
        v :: items.filterMap HeadItem.output? := rfl
      have hfactors : (HeadItem.output v :: items).filterMap HeadItem.factors? =
        items.filterMap HeadItem.factors? := rfl
      rw [houtputs, hfactors]
      refine ih.trans ?_
      simp
    | sum factors =>
      have houtputs : (HeadItem.sum factors :: items).filterMap HeadItem.output? =
        items.filterMap HeadItem.output? := rfl
      have hfactors : (HeadItem.sum factors :: items).filterMap HeadItem.factors? =
        factors :: items.filterMap HeadItem.factors? := rfl
      rw [houtputs, hfactors]
      cases hsum : h₀.sum? with
      | some s =>
        have hstep : addItem h₀ (.sum factors) = .error .multipleAggregates := by
          simp [addItem, hsum]
        rw [hstep]
        refine ⟨nofun, fun ⟨_, _, htwo, _⟩ => ?_⟩
        cases hsum' : h.sum? <;> simp [hsum'] at htwo
      | none =>
        cases hfind : factors.find? isStringConst with
        | some factor =>
          have hstep : addItem h₀ (.sum factors) = .error (.invalidFactor factor.render) := by
            simp [addItem, hsum, hfind]
          rw [hstep]
          refine ⟨nofun, fun ⟨_, _, _, hall⟩ => ?_⟩
          have hfactor := hall factors (by simp) factor (List.mem_of_find?_eq_some hfind)
          simp [List.find?_some hfind] at hfactor
        | none =>
          have hstep : addItem h₀ (.sum factors) = .ok { h₀ with sum? := some ⟨factors⟩ } := by
            simp [addItem, hsum, hfind]
          have hall : ∀ t ∈ factors, isStringConst t = false := by
            simpa using hfind
          rw [hstep, List.forall_mem_cons, and_iff_right hall]
          exact ih

theorem headOfItems_eq_ok_iff {name : String} {items : List HeadItem} {h : Head} :
    headOfItems name items = .ok h ↔ h.name = name ∧ h.Collects items := by
  refine foldlM_addItem_eq_ok_iff.trans ⟨?_, ?_⟩
  · rintro ⟨hname, houtputs, hsum, hfactors⟩
    have hsum : items.filterMap HeadItem.factors? = h.sum?.toList.map Aggregate.factors := hsum
    refine ⟨hname.symm, houtputs, hsum, fun s hs => hfactors s.factors ?_⟩
    rw [hsum, Option.mem_def.mp hs]
    simp
  · rintro ⟨hname, houtputs, hsum, hfactors⟩
    refine ⟨hname.symm, houtputs, hsum, ?_⟩
    rw [hsum]
    simpa using hfactors

/-- What spells a rule is not empty: it has a name in it. -/
theorem isEmpty_of_ruleText {text : String} {found : String × List HeadItem × List Literal}
    (h : Grammar.Around Grammar.RuleText text.toList found) : Text.isEmpty text = false := by
  obtain ⟨u, core, v, -, hrule, -, htext⟩ := h
  obtain ⟨c, hmem, hc⟩ := Grammar.exists_isNameStart_of_ruleText hrule
  refine List.all_eq_false.mpr ⟨c, ?_, by simp [Grammar.isBlank_of_isNameStart hc]⟩
  rw [htext]
  simp [hmem]

/-- Exactly the texts that spell a query are read as this query. -/
theorem read_eq_ok_iff {text : String} {q : Query} :
    read text = .ok q ↔ q.SpelledBy text.toList := by
  have hrule : ∀ {found}, (Parser.spaced Grammar.rule).complete text.toList = .ok found ↔
      Grammar.Around Grammar.RuleText text.toList found :=
    Parser.complete_spaced_eq_ok_iff Grammar.sound_rule Grammar.reads_rule
  constructor
  · intro h
    unfold read at h
    split at h
    · cases h
    · split at h
      · cases h
      · next name items body hrun =>
        cases hhead : headOfItems name items with
        | error e => rw [hhead] at h; cases h
        | ok head =>
          rw [hhead] at h
          cases h
          obtain ⟨rfl, hcollects⟩ := headOfItems_eq_ok_iff.mp hhead
          exact ⟨items, hrule.mp hrun, hcollects⟩
  · rintro ⟨items, htext, hcollects⟩
    have hempty := isEmpty_of_ruleText htext
    have hhead := headOfItems_eq_ok_iff.mpr ⟨rfl, hcollects⟩
    rw [read, if_neg (by simp [hempty]), hrule.mpr htext]
    simp only [hhead]
    rfl

/-- No text spells two queries: the rule that it spells leaves no choice of the head. -/
theorem SpelledBy.unique {t : List Char} {q q' : Query} (h : q.SpelledBy t)
    (h' : q'.SpelledBy t) : q = q' := by
  obtain ⟨head, body⟩ := q
  obtain ⟨head', body'⟩ := q'
  obtain ⟨items, htext, hcollects⟩ := h
  obtain ⟨items', htext', hcollects'⟩ := h'
  obtain ⟨hname, rfl, rfl⟩ : head.name = head'.name ∧ items = items' ∧ body = body' := by
    simpa using Grammar.ruleText_unique htext htext'
  have hhead := headOfItems_eq_ok_iff.mpr ⟨hname, hcollects⟩
  have hhead' := headOfItems_eq_ok_iff.mpr ⟨rfl, hcollects'⟩
  obtain rfl : head = head' := Except.ok.inj (hhead.symm.trans hhead')
  rfl

/-- **The grammar is read, and nothing else.** A text is read as a query exactly if it spells this
query, and it is refused exactly if it spells none. No text spells two queries. -/
theorem read_exact :
    (∀ (text : String) (q : Query), read text = .ok q ↔ q.SpelledBy text.toList) ∧
    (∀ text : String, (∃ e, read text = .error e) ↔ ∀ q : Query, ¬ q.SpelledBy text.toList) ∧
    ∀ (t : List Char) (q q' : Query), q.SpelledBy t → q'.SpelledBy t → q = q' := by
  refine ⟨fun text q => read_eq_ok_iff, fun text => ?_, fun t q q' h h' => h.unique h'⟩
  constructor
  · rintro ⟨e, he⟩ q hq
    have hread := read_eq_ok_iff.mpr hq
    rw [he] at hread
    cases hread
  · intro hnone
    cases hread : read text with
    | error e => exact ⟨e, rfl⟩
    | ok q => exact absurd (read_eq_ok_iff.mp hread) (hnone q)

/-- A query whose variable is named as the aggregate is. -/
def namesake : Query :=
  ⟨⟨"SUM", [⟨"SUM"⟩], some ⟨[.var ⟨"SUM"⟩, .const (.integer (-7))]⟩⟩,
    [.atom ⟨"R", [.var ⟨"SUM"⟩, .const (.string "a b")]⟩,
      .comparison ⟨.const (.integer 1), .le, .var ⟨"SUM"⟩⟩]⟩

theorem read_exact_namesake :
    (∃ q, read " \tSUM( SUM,SUM (SUM*\n-007)):-\r\nR (SUM ,'a b'),1<=SUM " = .ok q ∧
      q.SpelledBy " \tSUM( SUM,SUM (SUM*\n-007)):-\r\nR (SUM ,'a b'),1<=SUM ".toList ∧
      q = namesake) ∧
    (∃ e, read "Q(SUM(x), SUM(y)) :- R(x, y)" = .error e) ∧
      ∀ q : Query, ¬ q.SpelledBy "Q(SUM(x), SUM(y)) :- R(x, y)".toList := by
  obtain ⟨haccept, hrefuse, hunique⟩ := read_exact
  have hread : read " \tSUM( SUM,SUM (SUM*\n-007)):-\r\nR (SUM ,'a b'),1<=SUM " = .ok namesake := by
    decide +kernel
  have hspelled := (haccept _ _).mp hread
  have htwice : ∃ e, read "Q(SUM(x), SUM(y)) :- R(x, y)" = .error e :=
    ⟨.multipleAggregates, by decide +kernel⟩
  exact ⟨⟨namesake, hread, hspelled, hunique _ _ _ hspelled hspelled⟩, htwice,
    (hrefuse _).mp htwice⟩

end Query

end Conjunct
