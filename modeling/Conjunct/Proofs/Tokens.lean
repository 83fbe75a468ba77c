import Conjunct.Proofs.Reading

/-!
# Tokens

The parsers of names, terms and comparators, each against its spelling: they are sound, and they
read each token to its end where no character follows that could go on with it. No layout follows a
name or a number in it, so a word ends where layout begins.

Three kinds of terms are tried one after the other. Their first characters tell them apart: a digit
or a minus sign, a quote, a letter or an underscore. Of comparators that begin alike the longer one
is tried first, and what the shorter one is read in front of is never the sign that is missing.
-/

namespace Conjunct

namespace Grammar

open Conjunct.Parser (Followed Begins Reads Sound skipLayout)

variable {c : Char} {t rest : List Char}

/-! ## Characters -/

/-- A character at which a name or a number ends. -/
def EndsWord (c : Char) : Prop :=
  isNameChar c = false

instance : DecidablePred EndsWord :=
  fun c => inferInstanceAs (Decidable (isNameChar c = false))

theorem endsWord_of_isLayout (c : Char) (h : Parser.isLayout c = true) : EndsWord c := by
  simp only [Parser.isLayout, Bool.or_eq_true, beq_iff_eq] at h
  rcases h with ((rfl | rfl) | rfl) | rfl <;> decide

/-- A name or a number ends in front of a text: no character of it comes first. -/
def AtBoundary (rest : List Char) : Prop :=
  ∀ c ∈ rest.head?, EndsWord c

theorem atBoundary_of_followed (h : Followed EndsWord rest) : AtBoundary rest :=
  h.head endsWord_of_isLayout

theorem AtBoundary.append_layout {v : List Char} (h : AtBoundary rest) (hv : IsLayout v) :
    AtBoundary (v ++ rest) := by
  cases v with
  | nil => exact h
  | cons d v =>
    intro c hc
    cases hc
    exact endsWord_of_isLayout d (hv d List.mem_cons_self)

theorem isNameChar_of_isNameStart (h : isNameStart c = true) : isNameChar c = true := by
  simp [isNameChar, h]

theorem isNameChar_of_isDigit (h : Decimal.isDigit c = true) : isNameChar c = true := by
  simp [isNameChar, h]

theorem isLayout_of_isNameChar (h : isNameChar c = true) : Parser.isLayout c = false := by
  cases hc : Parser.isLayout c with
  | false => rfl
  | true =>
    have hend : isNameChar c = false := endsWord_of_isLayout c hc
    simp [h] at hend

/-- The codes of letters and of the underscore. -/
theorem toNat_of_isNameStart (h : isNameStart c = true) : 65 ≤ c.toNat ∧ c.toNat ≤ 122 := by
  simp only [isNameStart, Char.le_def, UInt32.le_iff_toNat_le, Bool.or_eq_true, Bool.and_eq_true,
    decide_eq_true_eq, beq_iff_eq] at h
  rcases h with h | rfl
  · have ha : ('a' : Char).val.toNat = 97 := rfl
    have hz : ('z' : Char).val.toNat = 122 := rfl
    have hA : ('A' : Char).val.toNat = 65 := rfl
    have hZ : ('Z' : Char).val.toNat = 90 := rfl
    rw [Char.toNat]
    omega
  · decide

theorem isDigit_of_isNameStart (h : isNameStart c = true) : Decimal.isDigit c = false := by
  obtain ⟨hlo, -⟩ := toNat_of_isNameStart h
  have h9 : ('9' : Char).val.toNat = 57 := rfl
  simp only [Decimal.isDigit, Char.le_def, UInt32.le_iff_toNat_le, Bool.and_eq_false_iff,
    decide_eq_false_iff_not]
  rw [Char.toNat] at hlo
  omega

theorem isBlank_of_isNameStart (h : isNameStart c = true) : Text.isBlank c = false := by
  obtain ⟨hlo, hhi⟩ := toNat_of_isNameStart h
  simp [Text.isBlank]
  omega

/-! ## Names -/

theorem takeWhile_append_of_head {p : Char → Bool} {ds : List Char} (hds : ∀ d ∈ ds, p d = true)
    (hrest : ∀ c ∈ rest.head?, p c = false) :
    (ds ++ rest).takeWhile p = ds ∧ (ds ++ rest).dropWhile p = rest := by
  rw [List.takeWhile_append_of_pos hds, List.dropWhile_append_of_pos hds]
  cases rest with
  | nil => simp
  | cons c rest => simp [hrest c rfl]

theorem begins_nameText : Begins NameText fun c => isNameStart c = true := by
  rintro t s ⟨rfl, c, cs, hcs, hc, -⟩
  exact ⟨c, cs, hcs, isLayout_of_isNameChar (isNameChar_of_isNameStart hc), hc⟩

theorem sound_name : name.Sound NameText := by
  refine Parser.sound_token fun {text rest s} h => ?_
  unfold takeName? at h
  split at h
  · next c tail =>
    split at h
    · next hc =>
      cases h
      refine ⟨c :: tail.takeWhile isNameChar, ?_, ?_, c, tail.takeWhile isNameChar, ?_, hc, ?_⟩
      · simp
      · simp
      · simp
      · exact List.all_eq_true.mp List.all_takeWhile
    · cases h
  · cases h

theorem run_name {s : String} (hs : NameText t s) (hrest : AtBoundary rest) :
    name.run (t ++ rest) = .ok (s, rest) := by
  refine Parser.run_token_eq_ok_iff.mpr ?_
  obtain ⟨rfl, c, cs, hcs, hc, hmem⟩ := hs
  obtain ⟨htake, hdrop⟩ := takeWhile_append_of_head hmem hrest
  rw [hcs, List.cons_append, takeName?, if_pos hc, htake, hdrop, ← hcs, String.ofList_toList]

theorem reads_name : name.Reads NameText EndsWord :=
  Parser.reads_of_run begins_nameText fun _ _ _ h hrest =>
    ⟨_, run_name h (atBoundary_of_followed hrest), rfl⟩

/-! ## Terms -/

theorem read?_digits {ds : List Char} (hne : ds ≠ []) (hds : ∀ d ∈ ds, Decimal.isDigit d = true) :
    Integer.read? ds = Integer.ofInt? (Nat.ofDigitChars 10 ds 0) := by
  have hsign : ∀ c, Decimal.isDigit c = true → c ≠ '+' ∧ c ≠ '-' := by
    rintro c hc
    constructor <;> rintro rfl <;> exact absurd hc (by decide)
  obtain ⟨d, ds, rfl⟩ := List.exists_cons_of_ne_nil hne
  obtain ⟨hplus, hminus⟩ := hsign d (hds d (by simp))
  rw [Integer.read?.eq_def]
  simp [hplus, hminus]
  grind

theorem read?_minus {ds : List Char} (hne : ds ≠ []) (hds : ∀ d ∈ ds, Decimal.isDigit d = true) :
    Integer.read? ('-' :: ds) = Integer.ofInt? (-Nat.ofDigitChars 10 ds 0) := by
  have hall : ds.all Decimal.isDigit = true := List.all_eq_true.mpr hds
  simp [Integer.read?, hne, hall]

theorem takeInteger?_cons_minus (text : List Char) :
    takeInteger? ('-' :: text) = (Integer.read? ('-' :: text.takeWhile Decimal.isDigit)).map
      (·, text.dropWhile Decimal.isDigit) :=
  rfl

theorem takeInteger?_unsigned (h : ∀ c ∈ t.head?, c ≠ '-') :
    takeInteger? t = (Integer.read? (t.takeWhile Decimal.isDigit)).map
      (·, t.dropWhile Decimal.isDigit) := by
  cases t with
  | nil => rfl
  | cons c t => simp [takeInteger?, h c rfl]

/-- A sign alone is no numeral, and neither is the empty text. -/
theorem ne_nil_of_read? {ds : List Char} {n : Integer}
    (h : Integer.read? ds = some n ∨ Integer.read? ('-' :: ds) = some n) : ds ≠ [] := by
  rintro rfl
  rcases h with h | h <;> simp [Integer.read?] at h

theorem sound_integer :
    (Parser.token takeInteger? takeInteger?_suffix).Sound IntegerText := by
  refine Parser.sound_token fun {text rest n} h => ?_
  by_cases hminus : ∀ c ∈ text.head?, c ≠ '-'
  · rw [takeInteger?_unsigned hminus] at h
    obtain ⟨m, hm, heq⟩ := Option.map_eq_some_iff.mp h
    cases heq
    have hne := ne_nil_of_read? (.inl hm)
    have hds := List.all_eq_true.mp (List.all_takeWhile (l := text) (p := Decimal.isDigit))
    rw [read?_digits hne hds] at hm
    exact ⟨text.takeWhile Decimal.isDigit, List.takeWhile_append_dropWhile.symm,
      .positive hne hds (Integer.ofInt?_eq_some_iff.mp hm)⟩
  · obtain ⟨unsigned, rfl⟩ : ∃ unsigned, text = '-' :: unsigned := by
      cases text with
      | nil => simp at hminus
      | cons c unsigned => exact ⟨unsigned, by simpa using hminus⟩
    rw [takeInteger?_cons_minus] at h
    obtain ⟨m, hm, heq⟩ := Option.map_eq_some_iff.mp h
    cases heq
    have hne := ne_nil_of_read? (.inr hm)
    have hds := List.all_eq_true.mp (List.all_takeWhile (l := unsigned) (p := Decimal.isDigit))
    rw [read?_minus hne hds] at hm
    exact ⟨'-' :: unsigned.takeWhile Decimal.isDigit,
      congrArg ('-' :: ·) List.takeWhile_append_dropWhile.symm,
      .negative hne hds (Integer.ofInt?_eq_some_iff.mp hm)⟩

theorem run_integer {n : Integer} (h : IntegerText t n) (hrest : AtBoundary rest) :
    (Parser.token takeInteger? takeInteger?_suffix).run (t ++ rest) = .ok (n, rest) := by
  refine Parser.run_token_eq_ok_iff.mpr ?_
  have hend : ∀ c ∈ rest.head?, Decimal.isDigit c = false := fun c hc =>
    (Bool.or_eq_false_iff.mp (hrest c hc)).2
  cases h with
  | positive hne hds hn =>
    have hminus : ∀ c ∈ (t ++ rest).head?, c ≠ '-' := by
      obtain ⟨d, ds, rfl⟩ := List.exists_cons_of_ne_nil hne
      rintro _ hd rfl
      cases hd
      exact absurd (hds '-' (by simp)) (by decide)
    obtain ⟨htake, hdrop⟩ := takeWhile_append_of_head hds hend
    rw [takeInteger?_unsigned hminus, htake, hdrop, read?_digits hne hds,
      Integer.ofInt?_eq_some_iff.mpr hn]
    rfl
  | @negative ds _ hne hds hn =>
    obtain ⟨htake, hdrop⟩ := takeWhile_append_of_head hds hend
    rw [List.cons_append, takeInteger?_cons_minus, htake, hdrop, read?_minus hne hds,
      Integer.ofInt?_eq_some_iff.mpr hn]
    rfl

/-- The characters with which integers begin. -/
def BeginsInteger (c : Char) : Prop :=
  c = '-' ∨ Decimal.isDigit c = true

instance : DecidablePred BeginsInteger :=
  fun c => inferInstanceAs (Decidable (c = '-' ∨ _))

theorem takeInteger?_of_head (h : ∀ c ∈ t.head?, ¬ BeginsInteger c) : takeInteger? t = none := by
  rw [takeInteger?_unsigned fun c hc heq => h c hc (.inl heq)]
  cases t with
  | nil => rfl
  | cons c t =>
    have hc : ¬ Decimal.isDigit c = true := fun hdigit => h c rfl (.inr hdigit)
    simp [hc, Integer.read?]

theorem not_beginsInteger_of_isNameStart (h : isNameStart c = true) : ¬ BeginsInteger c := by
  rintro (rfl | hd)
  · exact absurd h (by decide)
  · simp [isDigit_of_isNameStart h] at hd

theorem sound_string :
    (Parser.token takeString? takeString?_suffix).Sound StringText := by
  refine Parser.sound_token fun {text rest s} h => ?_
  unfold takeString? at h
  split at h
  · next tail =>
    split at h
    · next q after hafter =>
      cases h
      let content := tail.takeWhile (· ≠ '\'')
      have hquote : q = '\'' := by
        have hhead := List.head?_dropWhile_not (· ≠ '\'') tail
        rw [hafter] at hhead
        simpa using hhead
      have hcontent : '\'' ∉ (String.ofList content).toList := by
        intro hmem
        rw [String.toList_ofList] at hmem
        simpa using List.all_eq_true.mp List.all_takeWhile _ hmem
      refine ⟨_, ?_, rfl, hcontent⟩
      have htail : tail = content ++ '\'' :: rest := by
        rw [← hquote, ← hafter]
        exact List.takeWhile_append_dropWhile.symm
      simpa [content] using htail
    · cases h
  · cases h

theorem run_string {s : String} (h : StringText t s) (rest : List Char) :
    (Parser.token takeString? takeString?_suffix).run (t ++ rest) = .ok (s, rest) := by
  refine Parser.run_token_eq_ok_iff.mpr ?_
  obtain ⟨rfl, hs⟩ := h
  have hall : ∀ c ∈ s.toList, decide (c ≠ '\'') = true := by
    intro c hc
    exact decide_eq_true fun heq => hs (heq ▸ hc)
  have hquote : ∀ c ∈ ('\'' :: rest).head?, decide (c ≠ '\'') = false := by simp
  obtain ⟨htake, hdrop⟩ := takeWhile_append_of_head hall hquote
  rw [List.cons_append, List.append_assoc, List.singleton_append, takeString?, hdrop, htake,
    String.ofList_toList]

theorem takeString?_of_head (h : ∀ c ∈ t.head?, c ≠ '\'') : takeString? t = none := by
  unfold takeString?
  split
  · exact absurd rfl (h _ rfl)
  · rfl

theorem begins_integerText : Begins IntegerText BeginsInteger := by
  intro t n h
  cases h with
  | positive hne hds =>
    obtain ⟨d, ds, rfl⟩ := List.exists_cons_of_ne_nil hne
    have hd := hds d (by simp)
    exact ⟨d, ds, rfl, isLayout_of_isNameChar (isNameChar_of_isDigit hd), .inr hd⟩
  | negative => exact ⟨_, _, rfl, by decide, .inl rfl⟩

theorem begins_stringText : Begins StringText (· = '\'') := by
  rintro t s ⟨rfl, -⟩
  exact ⟨_, _, rfl, by decide, rfl⟩

/-- The characters with which terms begin. -/
def BeginsTerm (c : Char) : Prop :=
  BeginsInteger c ∨ c = '\'' ∨ isNameStart c = true

instance : DecidablePred BeginsTerm :=
  fun c => inferInstanceAs (Decidable (BeginsInteger c ∨ _))

theorem ne_of_beginsTerm {d : Char} (h : BeginsTerm c) (hd : ¬ BeginsTerm d) : c ≠ d :=
  fun heq => hd (heq ▸ h)

theorem begins_termText : Begins TermText BeginsTerm := by
  intro t a h
  cases h with
  | integer h => exact (begins_integerText.mono fun _ => .inl) h
  | string h => exact (begins_stringText.mono fun _ h => .inr (.inl h)) h
  | var h => exact (begins_nameText.mono fun _ h => .inr (.inr h)) h

theorem sound_term : term.Sound TermText :=
  (sound_integer.map fun _ _ => .integer).orElse <|
    (sound_string.map fun _ _ => .string).orElse <| sound_name.map fun _ _ h => .var h

theorem run_term {a : Term} (h : TermText t a) (hrest : AtBoundary rest) :
    term.run (t ++ rest) = .ok (a, rest) := by
  cases h with
  | integer h => exact Parser.run_orElse_of_ok _ (Parser.run_map_of_ok _ (run_integer h hrest))
  | string h =>
    have hinteger : takeInteger? (t ++ rest) = none := by
      obtain ⟨c, w, rfl, -, rfl⟩ := begins_stringText h
      exact takeInteger?_of_head (by rintro _ ⟨⟩; decide)
    rw [term, Parser.run_orElse_of_error _ (Parser.run_map_of_error _
      (Parser.run_token_of_none hinteger))]
    exact Parser.run_orElse_of_ok _ (Parser.run_map_of_ok _ (run_string h rest))
  | var h =>
    have hrun := run_name h hrest
    obtain ⟨c, w, rfl, -, hc⟩ := begins_nameText h
    have hinteger : takeInteger? (c :: w ++ rest) = none :=
      takeInteger?_of_head (by rintro _ ⟨⟩; exact not_beginsInteger_of_isNameStart hc)
    have hstring : takeString? (c :: w ++ rest) = none :=
      takeString?_of_head (by rintro _ ⟨⟩ rfl; exact absurd hc (by decide))
    rw [term, Parser.run_orElse_of_error _ (Parser.run_map_of_error _
        (Parser.run_token_of_none hinteger)),
      Parser.run_orElse_of_error _ (Parser.run_map_of_error _ (Parser.run_token_of_none hstring))]
    exact Parser.run_map_of_ok _ hrun

theorem reads_term : term.Reads TermText EndsWord :=
  Parser.reads_of_run begins_termText fun _ _ _ h hrest =>
    ⟨_, run_term h (atBoundary_of_followed hrest), rfl⟩

/-- A term is read to its end even if, behind layout, a further word follows. -/
theorem run_spaced_term {a : Term} (h : Around TermText t a) (hrest : AtBoundary rest) :
    (Parser.spaced term).run (skipLayout (t ++ rest)) = .ok (a, skipLayout rest) := by
  obtain ⟨u, core, v, hu, hcore, hv, rfl⟩ := h
  have hrun := run_term hcore (hrest.append_layout hv)
  obtain ⟨c, w, rfl, hc, -⟩ := begins_termText hcore
  refine Parser.run_spaced_eq_ok_iff.mpr ⟨v ++ rest, ?_, Parser.skipLayout_append hv rest⟩
  rw [Parser.skipLayout_skipLayout, List.append_assoc, Parser.skipLayout_append hu,
    List.append_assoc, List.cons_append, Parser.skipLayout_cons hc]
  exact hrun

/-! ## Comparators -/

/-- The characters with which comparators begin. -/
def BeginsComparator (c : Char) : Prop :=
  c ∈ ['=', '!', '<', '>']

instance : DecidablePred BeginsComparator :=
  fun c => inferInstanceAs (Decidable (c ∈ _))

theorem begins_comparatorText : Begins ComparatorText BeginsComparator := by
  rintro t op rfl
  cases op <;> exact ⟨_, _, rfl, by decide, by decide⟩

theorem endsWord_of_beginsComparator (c : Char) (h : BeginsComparator c) : EndsWord c := by
  simp only [BeginsComparator, List.mem_cons, List.not_mem_nil, or_false] at h
  rcases h with rfl | rfl | rfl | rfl <;> decide

theorem sound_comparator : comparator.Sound ComparatorText := by
  have symbol : ∀ op : Comparator,
      ((Parser.word op.symbol.toList).map fun _ => op).Sound ComparatorText :=
    fun op => (Parser.sound_word _).map fun _ _ h => h
  exact (symbol .ne).orElse <| (symbol .le).orElse <| (symbol .ge).orElse <|
    (symbol .eq).orElse <| (symbol .lt).orElse (symbol .gt)

/-- No comparator continues another in front of a character other than `=`. -/
theorem run_comparator {op : Comparator} (h : ComparatorText t op)
    (hrest : Followed (· ≠ '=') rest) : comparator.run (t ++ rest) = .ok (op, rest) := by
  have hword : Parser.afterWord? ['='] rest = none := by
    have hhead := hrest.head (by rintro c hc rfl; exact absurd hc (by decide))
    cases rest with
    | nil => rfl
    | cons c rest => exact if_neg (Ne.symm (hhead c rfl))
  rcases h
  cases op
  case lt | gt =>
    simp [comparator, Parser.orElse, Parser.map, Parser.word, Parser.token, Comparator.symbol,
      Parser.afterWord?, hword]
  all_goals rfl

theorem reads_comparator : comparator.Reads ComparatorText (· ≠ '=') :=
  Parser.reads_of_run begins_comparatorText fun _ _ _ h hrest => ⟨_, run_comparator h hrest, rfl⟩

end Grammar

end Conjunct
