import Conjunct.Json.Reader
import Conjunct.Proofs.Edges
import Conjunct.Proofs.Reading

/-!
# Reading what is quoted

What is written between quotes is read again, whatever characters it is made of.

**Theorem (`Json.read?_quoteObject`).** The written form of a list of names with strings is read as
an object with these names and strings, in their order and with repetitions.

**Theorem (`Json.printed_quoteObject`).** Nothing in the written form is a control character.

Each character is read from its escape as one unit, which is the code of the character
(`Json.takeUnits?_escape`). So no unit is half of a pair, and the units join to the characters
again. The escape of a quote does not begin with a quote; hence the first quote behind a string is
the one that closes it, and the reader knows each value by its first character.
-/

namespace Conjunct

namespace Json

open Conjunct.Parser (token word spaced mark listOf optionalListOf skipLayout isLayout Followed)
open Grammar (Spelling IsLayout Around Listed)

/-! ## Characters -/

/-- All characters of a text can be printed: none is a control character. -/
def Printed (cs : List Char) : Prop :=
  ∀ c ∈ cs, 0x20 ≤ c.toNat

theorem printed_append {cs ds : List Char} : Printed (cs ++ ds) ↔ Printed cs ∧ Printed ds :=
  List.forall_mem_append

theorem hexValue?_hexDigit : ∀ n < 16, hexValue? (hexDigit n) = some n := by
  decide

theorem printed_hexDigit : ∀ n < 16, 0x20 ≤ (hexDigit n).toNat := by
  decide

/-- A character is escaped by a letter, by its code, or not at all. -/
theorem escape_cases (c : Char) :
    (∃ letter, escape c = ['\\', letter] ∧ letter ≠ 'u' ∧ letterUnit? letter = some c.toNat ∧
        0x20 ≤ letter.toNat) ∨
      (c.toNat < 0x20 ∧ escape c =
        ['\\', 'u', '0', '0', hexDigit (c.toNat / 16), hexDigit (c.toNat % 16)]) ∨
      (0x20 ≤ c.toNat ∧ c ≠ '"' ∧ c ≠ '\\' ∧ escape c = [c]) := by
  unfold escape
  split
  case h_8 hquote hslash _ _ _ _ _ =>
    by_cases hcontrol : c.toNat < 0x20
    · rw [if_pos hcontrol]
      exact .inr (.inl ⟨hcontrol, rfl⟩)
    · rw [if_neg hcontrol]
      exact .inr (.inr ⟨by omega, hquote, hslash, rfl⟩)
  all_goals exact .inl ⟨_, rfl, by decide, rfl, by decide⟩

theorem printed_escape (c : Char) : Printed (escape c) := by
  rcases escape_cases c with ⟨letter, hescape, -, -, hletter⟩ | ⟨hcontrol, hescape⟩ |
    ⟨hprint, -, -, hescape⟩
  · simp [Printed, hescape, hletter]
  · have hhigh := printed_hexDigit (c.toNat / 16) (by omega)
    have hlow := printed_hexDigit (c.toNat % 16) (by omega)
    simp [Printed, hescape, hhigh, hlow]
  · simp [Printed, hescape, hprint]

theorem hexUnit?_hexDigit {n : Nat} (h : n < 0x20) :
    hexUnit? '0' '0' (hexDigit (n / 16)) (hexDigit (n % 16)) = some n := by
  have hhigh := hexValue?_hexDigit (n / 16) (by omega)
  have hlow := hexValue?_hexDigit (n % 16) (by omega)
  have hzero : hexValue? '0' = some 0 := by decide
  have hunit : 16 * (n / 16) + n % 16 = n := Nat.div_add_mod n 16
  simp [hexUnit?, hzero, hhigh, hlow, hunit]

/-- An escape is read as one unit, the code of its character. -/
theorem takeUnits?_escape (c : Char) (text : List Char) :
    takeUnits? (escape c ++ text) =
      (takeUnits? text).map fun (units, rest) => (c.toNat :: units, rest) := by
  rcases escape_cases c with ⟨letter, hescape, hu, hletter, -⟩ | ⟨hcontrol, hescape⟩ |
    ⟨hprint, hquote, hslash, hescape⟩
  -- A letter behind the backslash is read as such, since it does not announce a code.
  · rw [hescape, List.cons_append, List.singleton_append, takeUnits?, hletter]
    · cases takeUnits? text <;> rfl
    · intro _ _ _ _ _ heq _
      exact hu heq
  · rw [hescape]
    simp only [List.cons_append, List.nil_append]
    rw [takeUnits?, hexUnit?_hexDigit hcontrol]
    cases takeUnits? text <;> rfl
  · rw [hescape, List.singleton_append, takeUnits?, if_neg (by omega)]
    · cases takeUnits? text <;> rfl
    · exact hquote
    · intro _ _ _ _ _ heq _
      exact hslash heq
    · intro _ _ heq _
      exact hslash heq

/-! ## Strings -/

theorem takeUnits?_flatMap_escape (cs rest : List Char) :
    takeUnits? (cs.flatMap escape ++ '"' :: rest) = some (cs.map Char.toNat, rest) := by
  induction cs with
  | nil => rw [List.flatMap_nil, List.nil_append, takeUnits?, List.map_nil]
  | cons c cs ih =>
    rw [List.flatMap_cons, List.append_assoc, takeUnits?_escape, ih]
    rfl

/-- No character is half of a pair. -/
theorem isHalf_toNat (c : Char) : isHigh c.toNat = false ∧ isLow c.toNat = false := by
  have hvalid : c.toNat < 0xD800 ∨ 0xDFFF < c.toNat ∧ c.toNat < 0x110000 := c.valid
  simp only [isHigh, isLow, Bool.and_eq_false_iff, decide_eq_false_iff_not]
  omega

theorem joinUnits?_map_toNat (cs : List Char) : joinUnits? (cs.map Char.toNat) = some cs := by
  induction cs with
  | nil => rfl
  | cons c cs ih =>
    obtain ⟨hhigh, hlow⟩ := isHalf_toNat c
    cases cs with
    | nil => simp [joinUnits?, hhigh, hlow]
    | cons d cs =>
      rw [List.map_cons] at ih
      simp [joinUnits?, hhigh, hlow, ih]

theorem toList_quote (s : String) :
    (quote s).toList = '"' :: (s.toList.flatMap escape ++ ['"']) := by
  simp [quote]

theorem run_quoted (s : String) (rest : List Char) :
    quoted.run ((quote s).toList ++ rest) = .ok (some s, rest) := by
  have htake : takeQuoted? ((quote s).toList ++ rest) = some (some s, rest) := by
    rw [toList_quote, List.cons_append, List.append_assoc, List.singleton_append, takeQuoted?,
      takeUnits?_flatMap_escape]
    simp [joinUnits?_map_toNat]
  rw [quoted]
  exact Parser.run_token_eq_ok_iff.mpr htake

theorem printed_quote (s : String) : Printed (quote s).toList := by
  intro c hc
  rw [toList_quote, List.mem_cons, List.mem_append, List.mem_flatMap, List.mem_singleton] at hc
  rcases hc with rfl | ⟨d, -, hc⟩ | rfl
  · decide
  · exact printed_escape d c hc
  · decide

/-! ## Values -/

theorem run_word_of_ne {c d : Char} (h : c ≠ d) (w text : List Char) :
    (word (c :: w)).run (d :: text) = .error (d :: text) := by
  have hnone : (Parser.afterWord? (c :: w) (d :: text)).map ((), ·) = none := by
    simp [Parser.afterWord?, h]
  simp only [word, token, hnone]

theorem run_number_of_head {c : Char} (hsign : c ≠ '-') (hdigit : Decimal.isDigit c = false)
    (text : List Char) :
    (token takeNumber? takeNumber?_suffix).run (c :: text) = .error (c :: text) := by
  have hzero : c ≠ '0' := by
    intro heq
    rw [heq] at hdigit
    exact absurd hdigit (by decide)
  apply Parser.run_token_of_none
  simp [takeNumber?, afterSign, afterWhole?, afterDigits?, hsign, hzero, hdigit]

theorem run_quoted_of_ne {c : Char} (h : c ≠ '"') (text : List Char) :
    quoted.run (c :: text) = .error (c :: text) := by
  apply Parser.run_token_of_none
  simp [takeQuoted?, h]

/-- A value that begins with a quote or a brace is no constant and no number. -/
theorem run_value_of_head (depth : Nat) {c : Char} (hc : c = '"' ∨ c = '\x7b') (text : List Char) :
    (value (depth + 1)).run (c :: text) =
      ((quoted.map string).orElse <|
        (((word ['[']).skipThen ((spaced (optionalListOf ',' (spaced (value depth)))).thenSkip
          (word [']']))).map array).orElse <|
        ((word ['\x7b']).skipThen ((spaced (optionalListOf ',' (spaced (member (spaced
          (value depth)))))).thenSkip (word ['\x7d']))).map object).run (c :: text) := by
  have hword : ∀ w ∈ ['n', 't', 'f'], w ≠ c := by
    rcases hc with rfl | rfl <;> simp
  have hnumber : c ≠ '-' ∧ Decimal.isDigit c = false := by
    rcases hc with rfl | rfl <;> decide
  rw [value,
    Parser.run_orElse_of_error _
      (Parser.run_map_of_error _ (run_word_of_ne (hword 'n' (by simp)) _ text)),
    Parser.run_orElse_of_error _
      (Parser.run_map_of_error _ (run_word_of_ne (hword 't' (by simp)) _ text)),
    Parser.run_orElse_of_error _
      (Parser.run_map_of_error _ (run_word_of_ne (hword 'f' (by simp)) _ text)),
    Parser.run_orElse_of_error _
      (Parser.run_map_of_error _ (run_number_of_head hnumber.1 hnumber.2 text))]

theorem run_value_quote (depth : Nat) (s : String) (rest : List Char) :
    (value (depth + 1)).run ((quote s).toList ++ rest) = .ok (.string (some s), rest) := by
  have hquoted := Parser.run_map_of_ok string (run_quoted s rest)
  rw [toList_quote, List.cons_append] at hquoted ⊢
  rw [run_value_of_head depth (.inl rfl), Parser.run_orElse_of_ok _ hquoted]

theorem run_value_brace (depth : Nat) (text : List Char) :
    (value (depth + 1)).run ('\x7b' :: text) =
      (((word ['\x7b']).skipThen ((spaced (optionalListOf ',' (spaced (member (spaced
        (value depth)))))).thenSkip (word ['\x7d']))).map object).run ('\x7b' :: text) := by
  rw [run_value_of_head depth (.inr rfl),
    Parser.run_orElse_of_error _ (Parser.run_map_of_error _ (run_quoted_of_ne (by decide) text)),
    Parser.run_orElse_of_error _ (Parser.run_map_of_error _
      (Parser.run_skipThen_of_error _ (run_word_of_ne (by decide) _ text)))]

/-! ## Objects -/

/-- A name and a string, each between quotes, with a colon between them. -/
def memberText (m : String × String) : String :=
  quote m.1 ++ ":" ++ quote m.2

/-- A name and a string as a member of an object. -/
def ofStrings (m : String × String) : Option String × Json :=
  (some m.1, .string (some m.2))

/-- A member is spelled by its name and its string between quotes. -/
def MemberText : Spelling (Option String × Json) := fun t found =>
  ∃ m, t = (memberText m).toList ∧ found = ofStrings m

theorem quoteObject_eq (members : List (String × String)) :
    quoteObject members = "\x7b" ++ Text.joined "," (members.map memberText) ++ "\x7d" := rfl

theorem skipLayout_quote (s : String) (rest : List Char) :
    skipLayout ((quote s).toList ++ rest) = (quote s).toList ++ rest := by
  rw [toList_quote, List.cons_append]
  exact Parser.skipLayout_cons (by decide) _

theorem reads_member (depth : Nat) :
    (member (spaced (value (depth + 1)))).Reads MemberText fun _ => True := by
  intro t rest found ht _
  obtain ⟨⟨key, s⟩, rfl, rfl⟩ := ht
  refine ⟨skipLayout rest, ?_, Parser.skipLayout_skipLayout rest⟩
  have htext : (memberText (key, s)).toList ++ rest =
      (quote key).toList ++ ([':'] ++ ((quote s).toList ++ rest)) := by
    simp [memberText]
  have hcolon : (mark [':']).run ([':'] ++ ((quote s).toList ++ rest)) =
      .ok ((), skipLayout ((quote s).toList ++ rest)) :=
    Parser.run_mark (Grammar.isMark_of [':']) (by decide) _
  rw [htext, skipLayout_quote, member]
  refine Parser.run_pair_eq_ok_iff.mpr ⟨(quote s).toList ++ rest, ?_, ?_⟩
  · rw [skipLayout_quote] at hcolon
    exact Parser.run_thenSkip_eq_ok_iff.mpr ⟨_, run_quoted key _, hcolon⟩
  · refine Parser.run_spaced_eq_ok_iff.mpr ⟨rest, ?_, rfl⟩
    rw [skipLayout_quote]
    exact run_value_quote depth s rest

theorem listed_memberText {members : List (String × String)} (hne : members ≠ []) :
    Listed ',' (Around MemberText) (Text.joined "," (members.map memberText)).toList
      (members.map ofStrings) := by
  have hlisted : Listed ',' (fun t m => t = (memberText m).toList)
      (Text.joined "," (members.map memberText)).toList members :=
    Grammar.listed_joined (Grammar.isMark_of [',']) hne fun _ _ => rfl
  apply hlisted.map
  intro t m ht
  exact Grammar.around_of ⟨m, ht, rfl⟩

theorem run_members (depth : Nat) (members : List (String × String)) (rest : List Char) :
    (spaced (optionalListOf ',' (spaced (member (spaced (value (depth + 1))))))).run
        ((Text.joined "," (members.map memberText)).toList ++ '\x7d' :: rest) =
      .ok (members.map ofStrings, '\x7d' :: rest) := by
  have hbrace : skipLayout ('\x7d' :: rest) = '\x7d' :: rest :=
    Parser.skipLayout_cons (by decide) rest
  refine Parser.run_spaced_eq_ok_iff.mpr ⟨'\x7d' :: rest, ?_, hbrace⟩
  apply Parser.run_optionalListOf_eq_ok_iff.mpr
  by_cases hne : members = []
  · right
    have hmember : (member (spaced (value (depth + 1)))).run (skipLayout ('\x7d' :: rest)) =
        .error ('\x7d' :: rest) := by
      rw [hbrace]
      exact Parser.run_pair_of_error _
        (Parser.run_thenSkip_of_error _ (run_quoted_of_ne (by decide) rest))
    have hlist : (listOf ',' (spaced (member (spaced (value (depth + 1)))))).run ('\x7d' :: rest) =
        .error ('\x7d' :: rest) := Parser.run_listOf_of_error (Parser.run_spaced_of_error hmember)
    rw [hne, List.map_nil, List.map_nil, Text.joined, String.toList_empty, List.nil_append, hbrace]
    exact ⟨⟨_, hlist⟩, rfl, rfl⟩
  · left
    have hrest : Followed (fun c => c ≠ ',' ∧ True) ('\x7d' :: rest) := by
      intro c hc
      rw [hbrace] at hc
      cases hc
      decide
    have hrun := (reads_member depth).run_listOf (by decide) trivial (listed_memberText hne) hrest
    rwa [hbrace] at hrun

/-- **What is quoted is read.** The written form of names with strings is read as the object of
these names and strings, also if there is layout behind it. -/
theorem read?_quoteObject (members : List (String × String)) {text : String} {v : List Char}
    (htext : text.toList = (quoteObject members).toList ++ v) (hv : IsLayout v) :
    read? text = some (.object (members.map ofStrings)) := by
  have hsplit : text.toList =
      '\x7b' :: ((Text.joined "," (members.map memberText)).toList ++ '\x7d' :: v) := by
    simp [htext, quoteObject_eq]
  obtain ⟨depth, hdepth⟩ : ∃ depth, text.toList.length = depth + 1 := by
    rw [hsplit]
    exact ⟨_, List.length_cons⟩
  have hend : skipLayout v = [] := by
    have hskip := Parser.skipLayout_append hv []
    rwa [List.append_nil] at hskip
  have hopen : (word ['\x7b']).run text.toList =
      .ok ((), (Text.joined "," (members.map memberText)).toList ++ '\x7d' :: v) :=
    Parser.run_word_eq_ok_iff.mpr hsplit
  have hclose : (word ['\x7d']).run ('\x7d' :: v) = .ok ((), v) := Parser.run_word_eq_ok_iff.mpr rfl
  have hinner := Parser.run_thenSkip_eq_ok_iff.mpr ⟨_, run_members depth members v, hclose⟩
  have hrun : (value (depth + 1 + 1)).run (skipLayout text.toList) =
      .ok (.object (members.map ofStrings), v) := by
    rw [hsplit] at hopen ⊢
    rw [Parser.skipLayout_cons (by decide), run_value_brace]
    exact Parser.run_map_of_ok object (Parser.run_skipThen_eq_ok_iff.mpr ⟨_, hopen, hinner⟩)
  have hcomplete : (spaced (value (text.toList.length + 1))).complete text.toList =
      .ok (.object (members.map ofStrings)) := by
    rw [hdepth]
    simp only [Parser.complete, spaced, hrun, hend]
  rw [read?, hcomplete]

theorem printed_memberText (m : String × String) : Printed (memberText m).toList := by
  have hcolon : Printed ":".toList := by simp [Printed]
  rw [memberText, String.toList_append, String.toList_append, printed_append, printed_append]
  exact ⟨⟨printed_quote m.1, hcolon⟩, printed_quote m.2⟩

/-- **Nothing in the written form of an object is a control character.** -/
theorem printed_quoteObject (members : List (String × String)) :
    Printed (quoteObject members).toList := by
  have hopen : Printed "\x7b".toList := by simp [Printed]
  have hclose : Printed "\x7d".toList := by simp [Printed]
  have hmembers : Printed (Text.joined "," (members.map memberText)).toList := by
    intro c hc
    rcases Text.mem_joined hc with hc | ⟨text, htext, hc⟩
    · obtain rfl : c = ',' := by simpa using hc
      decide
    · obtain ⟨m, -, rfl⟩ := List.mem_map.mp htext
      exact printed_memberText m c hc
  rw [quoteObject_eq, String.toList_append, String.toList_append, printed_append, printed_append]
  exact ⟨⟨hopen, hmembers⟩, hclose⟩

end Json

end Conjunct
