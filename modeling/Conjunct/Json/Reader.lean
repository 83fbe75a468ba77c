import Conjunct.Json.Quoted
import Conjunct.Text.Decimal
import Conjunct.Text.Parser

/-!
# Reading JSON

The values of the JSON format, and a reader for them. Objects keep their members in order and with
repetitions, and numbers keep their text.

A string is written in units of 16 bits: a character or escape may be one half of a surrogate
pair. Halves that do not pair up make no string (`Json.string none`), which is left to the user of
the value to refuse.
-/

namespace Conjunct

/-- A JSON value. -/
inductive Json where
  | null
  | bool (b : Bool)
  | number (text : String)
  | string (text : Option String)
  | array (items : List Json)
  | object (members : List (Option String × Json))

namespace Json

open Conjunct.Parser (token word spaced mark optionalListOf)

/-! ## Strings -/

/-- The number a hexadecimal digit stands for. -/
def hexValue? (c : Char) : Option Nat :=
  if '0' ≤ c ∧ c ≤ '9' then some (c.toNat - '0'.toNat)
  else if 'a' ≤ c ∧ c ≤ 'f' then some (c.toNat - 'a'.toNat + 10)
  else if 'A' ≤ c ∧ c ≤ 'F' then some (c.toNat - 'A'.toNat + 10)
  else none

/-- The number that four hexadecimal digits stand for. -/
def hexUnit? (a b c d : Char) : Option Nat := do
  return 4096 * (← hexValue? a) + 256 * (← hexValue? b) + 16 * (← hexValue? c) + (← hexValue? d)

/-- The unit that an escape letter stands for. -/
def letterUnit? : Char → Option Nat
  | '"' => some 0x22
  | '\\' => some 0x5C
  | '/' => some 0x2F
  | 'b' => some 0x08
  | 'f' => some 0x0C
  | 'n' => some 0x0A
  | 'r' => some 0x0D
  | 't' => some 0x09
  | _ => none

/-- Split off the units up to the closing quote. -/
def takeUnits? : List Char → Option (List Nat × List Char)
  | [] => none
  | '"' :: rest => some ([], rest)
  | '\\' :: 'u' :: a :: b :: c :: d :: rest => do
    let unit ← hexUnit? a b c d
    let (units, rest) ← takeUnits? rest
    return (unit :: units, rest)
  | '\\' :: letter :: rest => do
    let unit ← letterUnit? letter
    let (units, rest) ← takeUnits? rest
    return (unit :: units, rest)
  | c :: rest =>
    if c.toNat < 0x20 then none
    else do
      let (units, rest) ← takeUnits? rest
      return (c.toNat :: units, rest)

theorem takeUnits?_suffix {text rest : List Char} {units : List Nat}
    (h : takeUnits? text = some (units, rest)) : rest <:+ text := by
  fun_induction takeUnits? text generalizing units rest with
  | case1 => simp at h
  | case2 tail =>
    cases h
    exact List.suffix_cons _ _
  | case3 a b c d tail ih =>
    simp only [Option.bind_eq_bind, Option.bind_eq_some_iff] at h
    obtain ⟨_, _, ⟨units', rest'⟩, htail, heq⟩ := h
    cases heq
    have hcons : tail <:+ '\\' :: 'u' :: a :: b :: c :: d :: tail := ⟨['\\', 'u', a, b, c, d], rfl⟩
    exact (ih htail).trans hcons
  | case4 letter tail _ ih =>
    simp only [Option.bind_eq_bind, Option.bind_eq_some_iff] at h
    obtain ⟨_, _, ⟨units', rest'⟩, htail, heq⟩ := h
    cases heq
    have hcons : tail <:+ '\\' :: letter :: tail := ⟨['\\', letter], rfl⟩
    exact (ih htail).trans hcons
  | case5 => simp at h
  | case6 c tail _ _ _ _ ih =>
    simp only [Option.bind_eq_bind, Option.bind_eq_some_iff] at h
    obtain ⟨⟨units', rest'⟩, htail, heq⟩ := h
    cases heq
    exact (ih htail).trans (List.suffix_cons _ _)

/-- Whether a unit is the first half of a pair. -/
def isHigh (u : Nat) : Bool :=
  0xD800 ≤ u && u < 0xDC00

/-- Whether a unit is the second half of a pair. -/
def isLow (u : Nat) : Bool :=
  0xDC00 ≤ u && u < 0xE000

/-- The characters that units stand for, if no half of a pair is left alone. -/
def joinUnits? : List Nat → Option (List Char)
  | [] => some []
  | [u] => if isHigh u || isLow u then none else some [Char.ofNat u]
  | u :: v :: rest =>
    if isHigh u && isLow v then
      (joinUnits? rest).map (Char.ofNat (0x10000 + 0x400 * (u - 0xD800) + (v - 0xDC00)) :: ·)
    else if isHigh u || isLow u then none
    else (joinUnits? (v :: rest)).map (Char.ofNat u :: ·)

/-- Split off a quoted string. -/
def takeQuoted? : List Char → Option (Option String × List Char)
  | '"' :: text => (takeUnits? text).map fun (units, rest) =>
      ((joinUnits? units).map String.ofList, rest)
  | _ => none

theorem takeQuoted?_suffix {text rest : List Char} {s : Option String}
    (h : takeQuoted? text = some (s, rest)) : rest <:+ text := by
  unfold takeQuoted? at h
  split at h
  · obtain ⟨⟨units, rest'⟩, hunits, heq⟩ := Option.map_eq_some_iff.mp h
    cases heq
    exact (takeUnits?_suffix hunits).trans (List.suffix_cons _ _)
  · cases h

/-- The parser of a quoted string. -/
def quoted : Parser (Option String) :=
  token takeQuoted? takeQuoted?_suffix

/-! ## Numbers -/

/-- What follows one or more digits. -/
def afterDigits? (text : List Char) : Option (List Char) :=
  if text.head?.any Decimal.isDigit then some (text.dropWhile Decimal.isDigit) else none

/-- What follows the whole part of a number, which begins with a zero only if it is zero. -/
def afterWhole? : List Char → Option (List Char)
  | '0' :: rest => some rest
  | text => afterDigits? text

/-- What follows the part of a number behind the point, which may be missing. -/
def afterFraction? : List Char → Option (List Char)
  | '.' :: rest => afterDigits? rest
  | text => some text

/-- What follows the exponent of a number, which may be missing. -/
def afterExponent? : List Char → Option (List Char)
  | 'e' :: '+' :: rest | 'e' :: '-' :: rest | 'E' :: '+' :: rest | 'E' :: '-' :: rest =>
    afterDigits? rest
  | 'e' :: rest | 'E' :: rest => afterDigits? rest
  | text => some text

/-- What follows a minus sign, which may be missing. -/
def afterSign : List Char → List Char
  | '-' :: rest => rest
  | text => text

/-- Split off a number. -/
def takeNumber? (text : List Char) : Option (String × List Char) := do
  let whole ← afterWhole? (afterSign text)
  let fraction ← afterFraction? whole
  let rest ← afterExponent? fraction
  return (String.ofList (text.take (text.length - rest.length)), rest)

theorem afterDigits?_suffix {text rest : List Char} (h : afterDigits? text = some rest) :
    rest <:+ text := by
  unfold afterDigits? at h
  split at h
  · cases h
    exact List.dropWhile_suffix _
  · cases h

theorem afterWhole?_suffix {text rest : List Char} (h : afterWhole? text = some rest) :
    rest <:+ text := by
  unfold afterWhole? at h
  split at h
  · cases h
    exact List.suffix_cons _ _
  · exact afterDigits?_suffix h

theorem afterFraction?_suffix {text rest : List Char} (h : afterFraction? text = some rest) :
    rest <:+ text := by
  unfold afterFraction? at h
  split at h
  · exact (afterDigits?_suffix h).trans (List.suffix_cons _ _)
  · cases h
    exact List.suffix_rfl

theorem afterExponent?_suffix {text rest : List Char} (h : afterExponent? text = some rest) :
    rest <:+ text := by
  unfold afterExponent? at h
  split at h
  case h_7 => cases h; exact List.suffix_rfl
  case h_5 | h_6 => exact (afterDigits?_suffix h).trans (List.suffix_cons _ _)
  all_goals
    exact (afterDigits?_suffix h).trans ((List.suffix_cons _ _).trans (List.suffix_cons _ _))

theorem afterSign_suffix (text : List Char) : afterSign text <:+ text := by
  unfold afterSign
  split
  · exact List.suffix_cons _ _
  · exact List.suffix_rfl

theorem takeNumber?_suffix {text rest : List Char} {n : String}
    (h : takeNumber? text = some (n, rest)) : rest <:+ text := by
  simp only [takeNumber?, Option.bind_eq_bind, Option.bind_eq_some_iff] at h
  obtain ⟨whole, hwhole, fraction, hfraction, rest', hrest, heq⟩ := h
  cases heq
  exact (afterExponent?_suffix hrest).trans <| (afterFraction?_suffix hfraction).trans <|
    (afterWhole?_suffix hwhole).trans (afterSign_suffix text)

/-! ## Values -/

/-- The parser that reads nothing. -/
def nothing {α : Type} : Parser α :=
  token (fun _ => none) (by intro _ _ _ h; cases h)

/-- The parser of a member of an object, for a parser of values. -/
def member (value : Parser Json) : Parser (Option String × Json) :=
  (quoted.thenSkip (mark [':'])).pair value

/-- The parser of a value that is nested at most to the given depth. -/
def value : Nat → Parser Json
  | 0 => nothing
  | depth + 1 =>
    let item := spaced (value depth)
    ((word ['n', 'u', 'l', 'l']).map fun _ => null).orElse <|
      ((word ['t', 'r', 'u', 'e']).map fun _ => bool true).orElse <|
      ((word ['f', 'a', 'l', 's', 'e']).map fun _ => bool false).orElse <|
      ((token takeNumber? takeNumber?_suffix).map number).orElse <|
      (quoted.map string).orElse <|
      (((word ['[']).skipThen ((spaced (optionalListOf ',' item)).thenSkip (word [']']))).map
        array).orElse <|
      ((word ['\x7b']).skipThen
        ((spaced (optionalListOf ',' (spaced (member item)))).thenSkip (word ['\x7d']))).map object

/-- Read a whole text as one value. -/
def read? (text : String) : Option Json :=
  match (spaced (value (text.toList.length + 1))).complete text.toList with
  | .ok v => some v
  | .error _ => none

end Json

end Conjunct
