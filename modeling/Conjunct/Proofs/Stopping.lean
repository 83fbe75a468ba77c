import Conjunct.Proofs.Edges
import Conjunct.Proofs.Except
import Conjunct.Proofs.Recognition

/-!
# Where reading stops

A text that the grammar does not match is reported by the place where reading stopped.

**Theorem (`Query.read_stops`).** The report shows the beginning of what is left of the text there.
What is in front of the place can be continued to a rule, and no part of the text that is a rule for
itself reaches beyond the place, unless a word goes on behind it.

A parser that fails has passed the beginning of some text that it reads (`Parser.Viable`). This goes
from the parts of a parser to the whole: what the first part has read is complete, and what the
second part has passed is continued. Of two alternatives the last one reports the place, so only its
parts matter. A list never fails behind its first element; it ends early instead.

So reading fails in front of a rule that is complete only if it ends early in it. It does not: up to
its last literal a rule is read as it is alone, and behind this literal more may be read, but
nothing is given up (`Parser.exists_run_listOf`).
-/

namespace Conjunct

open Grammar (Spelling IsLayout Around IsMark Listed Bracketed bracketed)

namespace Parser

variable {α β : Type}

/-! ## Runs that fail -/

section Failures

variable {p p' : Parser α} {q : Parser β} {text stop : List Char}

theorem eq_of_run_token_error {take? : List Char → Option (α × List Char)}
    {suffix : ∀ {text a rest}, take? text = some (a, rest) → rest <:+ text}
    (h : (token take? suffix).run text = .error stop) : text = stop := by
  simp only [token] at h
  split at h
  · cases h
  · exact Except.error.inj h

theorem eq_of_run_word_error {w : List Char} (h : (word w).run text = .error stop) :
    text = stop := by
  simp only [word, token] at h
  split at h
  · cases h
  · exact Except.error.inj h

theorem run_map_eq_error_iff {f : α → β} :
    (p.map f).run text = .error stop ↔ p.run text = .error stop := by
  simp only [map]
  cases p.run text <;> simp

theorem run_pair_eq_error_iff :
    (p.pair q).run text = .error stop ↔
      p.run text = .error stop ∨
        ∃ a middle, p.run text = .ok (a, middle) ∧ q.run middle = .error stop := by
  simp only [pair]
  cases hp : p.run text with
  | error stop' => simp
  | ok found =>
    obtain ⟨a, middle⟩ := found
    cases hq : q.run middle with
    | error stop' => grind
    | ok found' => grind

theorem run_spaced_eq_error_iff :
    (spaced p).run text = .error stop ↔ p.run (skipLayout text) = .error stop := by
  simp only [spaced]
  cases p.run (skipLayout text) <;> simp

theorem run_of_orElse_error (h : (p.orElse p').run text = .error stop) :
    p'.run text = .error stop := by
  simp only [orElse] at h
  split at h
  · cases h
  · exact h

theorem run_listOf_eq_error_iff {sep : Char} :
    (listOf sep p).run text = .error stop ↔ p.run text = .error stop := by
  simp only [listOf]
  cases p.run text <;> simp

theorem run_optionalListOf_ne_error {sep : Char} :
    (optionalListOf sep p).run text ≠ .error stop := by
  simp only [optionalListOf]
  split <;> simp

end Failures

/-! ## What a failing parser has passed -/

/-- What a parser has passed when it fails begins a text that spells a value. -/
def Viable (p : Parser α) (R : Spelling α) : Prop :=
  ∀ ⦃text stop⦄, p.run text = .error stop →
    ∃ passed cont a, text = passed ++ stop ∧ R (passed ++ cont) a

section Viable

variable {p p' : Parser α} {R : Spelling α} {q : Parser β} {S : Spelling β}

theorem viable_token {take? : List Char → Option (α × List Char)}
    {suffix : ∀ {text a rest}, take? text = some (a, rest) → rest <:+ text}
    (hR : ∃ t a, R t a) : (token take? suffix).Viable R := by
  intro text stop hrun
  obtain ⟨t, a, ha⟩ := hR
  exact ⟨[], t, a, eq_of_run_token_error hrun, ha⟩

theorem viable_word (w : List Char) : (word w).Viable fun t _ => t = w := by
  intro text stop hrun
  exact ⟨[], w, (), eq_of_run_word_error hrun, rfl⟩

theorem Viable.map {f : α → β} (hp : p.Viable R) (hf : ∀ t a, R t a → S t (f a)) :
    (p.map f).Viable S := by
  intro text stop hrun
  obtain ⟨passed, cont, a, htext, ha⟩ := hp (run_map_eq_error_iff.mp hrun)
  exact ⟨passed, cont, f a, htext, hf _ a ha⟩

theorem Viable.pair (hp : p.Viable R) (hsound : p.Sound R) (hq : q.Viable S)
    (hS : ∃ s b, S s b) :
    (p.pair q).Viable fun t ab => ∃ t₁ t₂, R t₁ ab.1 ∧ S t₂ ab.2 ∧ t = t₁ ++ t₂ := by
  intro text stop hrun
  rcases run_pair_eq_error_iff.mp hrun with hfirst | ⟨a, middle, hfirst, hsecond⟩
  · obtain ⟨passed, cont, a, htext, ha⟩ := hp hfirst
    obtain ⟨s, b, hs⟩ := hS
    refine ⟨passed, cont ++ s, (a, b), htext, passed ++ cont, s, ha, hs, ?_⟩
    rw [List.append_assoc]
  · obtain ⟨t, htext, ha⟩ := hsound hfirst
    obtain ⟨passed, cont, b, hmiddle, hb⟩ := hq hsecond
    refine ⟨t ++ passed, cont, (a, b), ?_, t, passed ++ cont, ha, hb, ?_⟩
    · rw [htext, hmiddle, List.append_assoc]
    · rw [List.append_assoc]

theorem Viable.orElse (p : Parser α) (hp' : p'.Viable R) : (p.orElse p').Viable R :=
  fun _ _ hrun => hp' (run_of_orElse_error hrun)

theorem Viable.spaced (hp : p.Viable R) : (spaced p).Viable (Around R) := by
  intro text stop hrun
  obtain ⟨u, hu, htext⟩ := exists_layout_append_skipLayout text
  obtain ⟨passed, cont, a, hskip, ha⟩ := hp (run_spaced_eq_error_iff.mp hrun)
  refine ⟨u ++ passed, cont, a, ?_, u, passed ++ cont, [], hu, ha, by decide, by simp⟩
  rw [htext, hskip, List.append_assoc]

theorem Viable.listOf (hp : p.Viable R) (sep : Char) : (listOf sep p).Viable (Listed sep R) := by
  intro text stop hrun
  obtain ⟨passed, cont, a, htext, ha⟩ := hp (run_listOf_eq_error_iff.mp hrun)
  exact ⟨passed, cont, [a], htext, .single ha⟩

theorem viable_optionalListOf (p : Parser α) (sep : Char) (R : Spelling (List α)) :
    (optionalListOf sep p).Viable R :=
  fun _ _ hrun => absurd hrun run_optionalListOf_ne_error

theorem viable_mark (w : List Char) : (mark w).Viable fun t _ => IsMark w t :=
  (viable_word w).spaced

theorem sound_mark (w : List Char) : (mark w).Sound fun t _ => IsMark w t :=
  (sound_word w).spaced

theorem Viable.between (hp : p.Viable R) (hsound : p.Sound R) (hR : ∃ t a, R t a) :
    (((mark ['(']).skipThen p).thenSkip (mark [')'])).Viable fun t a =>
      ∃ l inner r, IsMark ['('] l ∧ R inner a ∧ IsMark [')'] r ∧ t = l ++ (inner ++ r) := by
  have hopen : ((mark ['(']).skipThen p).Viable fun t a =>
      ∃ l inner, IsMark ['('] l ∧ R inner a ∧ t = l ++ inner :=
    ((viable_mark ['(']).pair (sound_mark ['(']) hp hR).map fun _ _ h => h
  have hopened : ((mark ['(']).skipThen p).Sound fun t a =>
      ∃ l inner, IsMark ['('] l ∧ R inner a ∧ t = l ++ inner :=
    ((sound_mark ['(']).pair hsound).map fun _ _ h => h
  refine (hopen.pair hopened (viable_mark [')']) ⟨_, (), Grammar.isMark_of [')']⟩).map ?_
  intro t found h
  obtain ⟨_, r, ⟨l, inner, hl, hinner, rfl⟩, hr, rfl⟩ := h
  exact ⟨l, inner, r, hl, hinner, hr, List.append_assoc ..⟩

/-- A bracketed list fails at one of its brackets: in between, the list ends where it cannot go
on. -/
theorem viable_bracketed (hp : p.Sound R) : (bracketed p).Viable (Bracketed (Around R)) := by
  have hlist := viable_optionalListOf (Parser.spaced p) ',' fun t as =>
    Listed ',' (Around R) t as ∨ t = [] ∧ as = []
  have hbetween := hlist.between (hp.spaced.optionalListOf ',') ⟨[], [], .inr ⟨rfl, rfl⟩⟩
  intro text stop hrun
  obtain ⟨passed, cont, as, htext, l, inner, r, hl, hinner, hr, heq⟩ := hbetween hrun
  refine ⟨passed, cont, as, htext, ?_⟩
  rw [heq]
  rcases hinner with hlist | ⟨rfl, rfl⟩
  · exact .some hl hlist hr
  · exact .none hl hr

/-- Where the whole of a text is not read, what is in front of the place begins a text that is. -/
theorem Viable.of_complete (hp : p.Viable R) (hsound : p.Sound R) {text stop : List Char}
    (h : p.complete text = .error stop) :
    ∃ passed cont a, text = passed ++ stop ∧ R (passed ++ cont) a := by
  unfold complete at h
  split at h
  · next hrun =>
    cases h
    exact hp hrun
  · cases h
  · next a rest _ hrun =>
    cases h
    obtain ⟨t, htext, ha⟩ := hsound hrun
    exact ⟨t, [], a, htext, by rwa [List.append_nil]⟩

theorem eq_of_complete_error {text stop r : List Char} {a : α} (h : p.complete text = .error stop)
    (hrun : p.run text = .ok (a, r)) : stop = r := by
  simp only [complete, hrun] at h
  cases r with
  | nil => cases h
  | cons c r => exact (Except.error.inj h).symm

end Viable

/-! ## Lists that end early -/

/-- If each of the last elements of a list is read in front of a text, then so is the list, and
perhaps more of the text, but nothing is given up. -/
theorem exists_run_listOf {p : Parser α} {R : Spelling α} {ok : Char → Prop} {sep : Char}
    {t rest : List Char} {as : List α} (hp : p.Reads R ok) (hsep : isLayout sep = false)
    (hok : ok sep)
    (hlast : ∀ t a, Around R t a →
      (spaced p).run (skipLayout (t ++ rest)) = .ok (a, skipLayout rest))
    (h : Listed sep (Around R) t as) :
    ∃ found r, (listOf sep (spaced p)).run (skipLayout (t ++ rest)) = .ok (found, r) ∧
      r <:+ skipLayout rest := by
  induction h with
  | single ha =>
    exact ⟨_, _, run_listOf_eq_ok_iff.mpr ⟨_, _, hlast _ _ ha, rfl⟩, more_suffix ..⟩
  | @cons t s ts a as ha hs _ ih =>
    obtain ⟨found, r, hfound, hr⟩ := ih
    have hnext : afterSeparator? sep (skipLayout (s ++ (ts ++ rest))) =
        some (skipLayout (ts ++ rest)) := by
      rw [afterSeparator?_skipLayout, afterSeparator?_mark hs hsep]
    refine ⟨a :: found, r, run_listOf_eq_ok_iff.mpr ⟨a, skipLayout (s ++ (ts ++ rest)), ?_, ?_⟩, hr⟩
    · rw [List.append_assoc, List.append_assoc]
      exact hp.run_spaced ha (followed_mark hs hsep hok _)
    · rw [more_of_afterSeparator? hnext hfound]

end Parser

/-! ## Rules -/

namespace Grammar

open Conjunct.Parser (Viable skipLayout)

variable {t rest stop : List Char}

theorem exists_nameText : ∃ t s, NameText t s :=
  ⟨['x'], "x", rfl, by decide⟩

theorem exists_termText : ∃ t a, TermText t a := by
  obtain ⟨t, s, h⟩ := exists_nameText
  exact ⟨t, .var ⟨s⟩, .var h⟩

theorem exists_around {α : Type} {R : Spelling α} (hR : ∃ t a, R t a) : ∃ t a, Around R t a := by
  obtain ⟨t, a, h⟩ := hR
  exact ⟨t, a, around_of h⟩

theorem viable_name : name.Viable NameText :=
  Parser.viable_token exists_nameText

theorem viable_term : term.Viable TermText := by
  have hname : (name.map (Term.var ∘ Variable.mk)).Viable TermText :=
    viable_name.map fun _ _ h => .var h
  exact (hname.orElse _).orElse _

theorem viable_comparator : comparator.Viable ComparatorText := by
  have hlast : ((Parser.word Comparator.gt.symbol.toList).map fun _ => Comparator.gt).Viable
      ComparatorText := (Parser.viable_word _).map fun _ _ h => h
  exact ((((hlast.orElse _).orElse _).orElse _).orElse _).orElse _

/-- The place of a comparison is reported, whatever an atom has passed. -/
theorem viable_literal : literal.Viable LiteralText := by
  have hterm := exists_around exists_termText
  have hright := viable_comparator.spaced.pair sound_comparator.spaced viable_term.spaced hterm
  have hcomparison : comparison.Viable fun t c => LiteralText t (.comparison c) := by
    obtain ⟨r, b, hr⟩ := hterm
    have hop : Around ComparatorText ['<'] .lt := around_of rfl
    refine (viable_term.spaced.pair sound_term.spaced hright
      ⟨_, (.lt, b), _, _, hop, hr, rfl⟩).map ?_
    intro t found h
    obtain ⟨l, _, hl, ⟨o, r, ho, hr, rfl⟩, rfl⟩ := h
    exact .comparison hl ho hr
  exact (hcomparison.map fun _ _ h => h).orElse _

theorem exists_literalText : ∃ t l, LiteralText t l := by
  obtain ⟨t, a, h⟩ := exists_around exists_termText
  have hop : Around ComparatorText ['<'] .lt := around_of rfl
  exact ⟨_, .comparison ⟨a, .lt, a⟩, .comparison h hop h⟩

theorem viable_rule : rule.Viable RuleText := by
  have hname := viable_name.spaced.pair sound_name.spaced
    (Parser.viable_bracketed sound_headItem)
    ⟨_, [], .none (isMark_of ['(']) (isMark_of [')'])⟩
  have hhead := sound_name.spaced.pair sound_headItem.bracketed
  obtain ⟨t, l, hl⟩ := exists_around exists_literalText
  have hbody : ((Parser.mark [':', '-']).skipThen
      (Parser.listOf ',' (Parser.spaced literal))).Viable fun t body =>
        ∃ m ls, IsMark [':', '-'] m ∧ Listed ',' (Around LiteralText) ls body ∧ t = m ++ ls :=
    ((Parser.viable_mark [':', '-']).pair (Parser.sound_mark [':', '-'])
      (viable_literal.spaced.listOf ',') ⟨t, [l], .single hl⟩).map fun _ _ h => h
  refine (hname.pair hhead hbody ?_).map ?_
  · exact ⟨_, [l], _, t, isMark_of [':', '-'], .single hl, rfl⟩
  · intro t found h
    obtain ⟨_, _, ⟨n, is, hn, his, rfl⟩, ⟨m, ls, hm, hls, rfl⟩, rfl⟩ := h
    rw [List.append_assoc]
    exact .mk hn his hm hls

/-- In front of a text with which no word goes on, a rule is read, and perhaps more of the text. -/
theorem exists_run_spaced_rule {found : String × List HeadItem × List Literal}
    (h : Around RuleText t found) (hrest : AtBoundary rest) :
    ∃ found' r, (Parser.spaced rule).run (t ++ rest) = .ok (found', r) ∧ r <:+ rest := by
  obtain ⟨u, core, v, hu, hcore, hv, rfl⟩ := h
  cases hcore with
  | @mk n is m ls name items body hname hitems hmark hlist =>
    have hlast : ∀ t l, Around LiteralText t l →
        (Parser.spaced literal).run (skipLayout (t ++ (v ++ rest))) =
          .ok (l, skipLayout (v ++ rest)) := by
      intro t l h
      obtain ⟨u, core, w, hu, hcore, hw, rfl⟩ := h
      have hrun := run_literal hcore ((hrest.append_layout hv).append_layout hw)
      refine Parser.run_spaced_eq_ok_iff.mpr ⟨_, ?_, Parser.skipLayout_skipLayout _⟩
      rw [Parser.skipLayout_skipLayout, List.append_assoc, Parser.skipLayout_append hu,
        List.append_assoc, hrun, Parser.skipLayout_append hw]
    obtain ⟨body', r, hbody, hr⟩ :=
      Parser.exists_run_listOf reads_literal (by decide) (by decide) hlast hlist
    -- The body may be longer than that of the given rule, but the head is the same.
    have hrun := run_rule hname hitems hmark hbody
    refine ⟨(name, items, body'), skipLayout r, ?_, ?_⟩
    · refine Parser.run_spaced_eq_ok_iff.mpr ⟨r, ?_, rfl⟩
      rw [List.append_assoc, Parser.skipLayout_append hu]
      simpa only [List.append_assoc] using hrun
    · rw [Parser.skipLayout_append hv] at hr
      exact (Parser.skipLayout_suffix r).trans (hr.trans (Parser.skipLayout_suffix rest))

end Grammar

/-! ## Queries -/

namespace Query

open Grammar (Around RuleText AtBoundary)

/-! ### Reports -/

/-- `near` shows the beginning of a text: the text without the blanks around it, as far as forty
characters go. -/
inductive ReadError.Shows : String → List Char → Prop
  | nothing {rest : List Char} : Text.IsBlanks rest → Shows "<end of input>" rest
  | whole {u core v : List Char} :
      Text.IsBlanks u → Text.Edged core → Text.IsBlanks v → core.length ≤ 40 →
      Shows (String.ofList core) (u ++ (core ++ v))
  | clipped {u front back v : List Char} :
      Text.IsBlanks u → Text.Edged (front ++ back) → Text.IsBlanks v → front.length = 40 →
      back ≠ [] → Shows (String.ofList front ++ "...") (u ++ (front ++ back ++ v))

theorem ReadError.stopped_of_edged {u core v : List Char} (hu : Text.IsBlanks u)
    (hcore : Text.Edged core) (hv : Text.IsBlanks v) :
    stopped (u ++ (core ++ v)) =
      if core.length ≤ 40 then .malformed (String.ofList core)
      else .malformed (String.ofList (core.take 40) ++ "...") := by
  have hne : core ≠ [] := by
    intro hnil
    simp [hnil, Text.Edged] at hcore
  simp only [stopped, shown, hcore.trim_append hu hv, if_neg hne]

theorem ReadError.stopped_eq_iff {near : String} {rest : List Char} :
    stopped rest = .malformed near ↔ Shows near rest := by
  constructor
  · intro h
    rcases Text.exists_trim rest with ⟨hrest, htrim⟩ | ⟨u, v, hu, hv, hedged, hrest⟩
    · simp only [stopped, htrim] at h
      cases h
      exact .nothing hrest
    · generalize Text.trim rest = core at hedged hrest
      subst hrest
      rw [stopped_of_edged hu hedged hv] at h
      by_cases hlen : core.length ≤ 40
      · rw [if_pos hlen] at h
        cases h
        exact .whole hu hedged hv hlen
      · rw [if_neg hlen] at h
        cases h
        have hcore : core.take 40 ++ core.drop 40 = core := List.take_append_drop 40 core
        have hback : core.drop 40 ≠ [] := by
          intro hnil
          have hlen' := List.drop_eq_nil_iff.mp hnil
          omega
        have hfront : (core.take 40).length = 40 := by
          rw [List.length_take]
          omega
        have hshows := Shows.clipped hu (by rwa [hcore]) hv hfront hback
        rwa [hcore] at hshows
  · intro h
    cases h with
    | nothing hrest =>
      rcases Text.exists_trim rest with ⟨-, htrim⟩ | ⟨u, v, -, -, hedged, hcs⟩
      · simp [stopped, htrim]
      · exfalso
        have hblank : (Text.trim rest).all Text.isBlank = true := by
          rw [List.all_eq_true]
          intro c hc
          apply hrest c
          rw [hcs]
          simp [hc]
        simp [hedged.not_blank] at hblank
    | whole hu hcore hv hlen => rw [stopped_of_edged hu hcore hv, if_pos hlen]
    | @clipped u front back v hu hcore hv hfront hback =>
      have hlen : ¬ (front ++ back).length ≤ 40 := by
        have hpos := List.length_pos_iff.mpr hback
        rw [List.length_append]
        omega
      rw [stopped_of_edged hu hcore hv, if_neg hlen, ← hfront, List.take_left]

/-! ### Rules -/

/-- A text is a rule: it is read as a query, or only the aggregates of its head are not in
order. -/
def IsRule (text : String) : Prop :=
  (∃ q, read text = .ok q) ∨ read text = .error .multipleAggregates ∨
    ∃ factor, read text = .error (.invalidFactor factor)

theorem of_addItem_eq_error {head : Head} {item : Grammar.HeadItem} {e : ReadError}
    (h : addItem head item = .error e) :
    e = .multipleAggregates ∨ ∃ factor, e = .invalidFactor factor := by
  cases item with
  | output v => cases h
  | sum factors =>
    simp only [addItem] at h
    split at h
    · cases h
      exact .inl rfl
    · split at h
      · next factor _ =>
        cases h
        exact .inr ⟨_, rfl⟩
      · cases h

theorem read_of_ruleText {text : String} {name : String} {items : List Grammar.HeadItem}
    {body : List Literal} (h : Around RuleText text.toList (name, items, body)) :
    read text = (headOfItems name items).map (⟨·, body⟩) := by
  have hcomplete := (Parser.complete_spaced_eq_ok_iff Grammar.sound_rule Grammar.reads_rule).mpr h
  rw [read, if_neg (by simp [isEmpty_of_ruleText h]), hcomplete]

theorem isRule_of_ruleText {text : String} {found : String × List Grammar.HeadItem × List Literal}
    (h : Around RuleText text.toList found) : IsRule text := by
  obtain ⟨name, items, body⟩ := found
  have hread := read_of_ruleText h
  cases hhead : headOfItems name items with
  | ok head =>
    rw [hhead] at hread
    exact .inl ⟨_, hread⟩
  | error e =>
    rw [hhead] at hread
    obtain ⟨head, item, -, hitem⟩ := exists_of_foldlM_error hhead
    rcases of_addItem_eq_error hitem with rfl | ⟨factor, rfl⟩
    · exact .inr (.inl hread)
    · exact .inr (.inr ⟨factor, hread⟩)

/-- What is read of a text: nothing, a place where reading stopped, or a rule. -/
theorem read_cases (text : String) :
    read text = .error .empty ∨
      (∃ place, (Parser.spaced Grammar.rule).complete text.toList = .error place ∧
        read text = .error (.stopped place)) ∨
      ∃ found, Around RuleText text.toList found := by
  by_cases hempty : Text.isEmpty text = true
  · exact .inl (if_pos hempty)
  · right
    cases hrun : (Parser.spaced Grammar.rule).complete text.toList with
    | error place =>
      refine .inl ⟨place, rfl, ?_⟩
      rw [read, if_neg hempty, hrun]
    | ok found =>
      exact .inr ⟨found,
        (Parser.complete_spaced_eq_ok_iff Grammar.sound_rule Grammar.reads_rule).mp hrun⟩

theorem exists_malformed (place : List Char) :
    ∃ near, ReadError.stopped place = .malformed near := by
  simp only [ReadError.stopped]
  split
  · exact ⟨_, rfl⟩
  · split <;> exact ⟨_, rfl⟩

theorem IsRule.exists_ruleText {text : String} (h : IsRule text) :
    ∃ found, Around RuleText text.toList found := by
  rcases read_cases text with hempty | ⟨place, -, hstopped⟩ | hrule
  · simp [IsRule, hempty] at h
  · obtain ⟨near, hnear⟩ := exists_malformed place
    simp [IsRule, hstopped, hnear] at h
  · exact hrule

theorem exists_place_of_malformed {text near : String} (h : read text = .error (.malformed near)) :
    ∃ place, (Parser.spaced Grammar.rule).complete text.toList = .error place ∧
      ReadError.Shows near place := by
  rcases read_cases text with hempty | ⟨place, hplace, hstopped⟩ | ⟨found, hrule⟩
  · rw [hempty] at h
    cases h
  · rw [hstopped] at h
    exact ⟨place, hplace, ReadError.stopped_eq_iff.mp (Except.error.inj h)⟩
  · rcases isRule_of_ruleText hrule with ⟨q, hq⟩ | hq | ⟨factor, hq⟩ <;> rw [hq] at h <;> cases h

/-! ### Places -/

/-- **Reading stops at a real place.** If a text is refused because the grammar does not match it,
then the report shows the beginning of a part of the text up to its end. What is in front of this
part can be continued to a rule, and it contains every beginning of the text that is a rule for
itself and behind which no word goes on. -/
theorem read_stops {text near : String} (h : read text = .error (.malformed near)) :
    ∃ passed rest : String, text = passed ++ rest ∧ ReadError.Shows near rest.toList ∧
      (∃ cont, IsRule (passed ++ cont)) ∧
      ∀ rule behind : String, text = rule ++ behind → IsRule rule →
        (∀ c ∈ behind.toList.head?, Grammar.isNameChar c = false) →
        ∃ more, passed = rule ++ more := by
  obtain ⟨place, hplace, hshows⟩ := exists_place_of_malformed h
  obtain ⟨passed, cont, found, htext, hcont⟩ :=
    Grammar.viable_rule.spaced.of_complete Grammar.sound_rule.spaced hplace
  refine ⟨String.ofList passed, String.ofList place, ?_, by simpa using hshows,
    ⟨String.ofList cont, ?_⟩, ?_⟩
  · rw [← String.ofList_append, ← htext, String.ofList_toList]
  · have hrule : Around RuleText (String.ofList passed ++ String.ofList cont).toList found := by
      simpa using hcont
    exact isRule_of_ruleText hrule
  · intro rule behind hsplit hrule hbehind
    obtain ⟨found', hrule'⟩ := hrule.exists_ruleText
    obtain ⟨_, r, hrun, w, hw⟩ := Grammar.exists_run_spaced_rule hrule' hbehind
    rw [hsplit, String.toList_append] at hplace htext
    have hr : place = r := Parser.eq_of_complete_error hplace hrun
    rw [← hw, ← hr, ← List.append_assoc, List.append_left_inj] at htext
    refine ⟨String.ofList w, ?_⟩
    rw [← htext, String.ofList_append, String.ofList_toList]

/-- The second literal has an integer that is too large; reading stops at the comma in front of it,
behind a rule whose head has two aggregates. -/
theorem read_stops_overlong :
    read "Q(SUM(x), SUM(y)) :- R(x, y) ,x <  9223372036854775808, S(y, 'and so on')" =
      .error (.malformed ",x <  9223372036854775808, S(y, 'and so ...") ∧
    ∃ passed rest : String,
      "Q(SUM(x), SUM(y)) :- R(x, y) ,x <  9223372036854775808, S(y, 'and so on')" =
        passed ++ rest ∧
      ReadError.Shows ",x <  9223372036854775808, S(y, 'and so ..." rest.toList ∧
      (∃ cont, IsRule (passed ++ cont)) ∧
      ∃ more, passed = "Q(SUM(x), SUM(y)) :- R(x, y) " ++ more := by
  have hread : read "Q(SUM(x), SUM(y)) :- R(x, y) ,x <  9223372036854775808, S(y, 'and so on')" =
      .error (.malformed ",x <  9223372036854775808, S(y, 'and so ...") := by
    decide +kernel
  obtain ⟨passed, rest, htext, hshows, hviable, hrules⟩ := read_stops hread
  have hrule : IsRule "Q(SUM(x), SUM(y)) :- R(x, y) " := .inr (.inl (by decide +kernel))
  refine ⟨hread, passed, rest, htext, hshows, hviable,
    hrules _ ",x <  9223372036854775808, S(y, 'and so on')" (by decide) hrule ?_⟩
  intro c hc
  obtain rfl : c = ',' := by simpa using hc.symm
  rfl

end Query

end Conjunct
