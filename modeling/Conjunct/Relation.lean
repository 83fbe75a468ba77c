import Conjunct.EvalError
import Conjunct.Text.Blank
import Conjunct.Tuple

/-!
# Relations

A relation has a name and a kind for each of its columns. Its tuples are the lines of a file: the
fields of a line stand between commas, blanks around a field do not count, an integer is written
in decimal and a string between single quotes.

**Theorem (`Relation.kinds_of_decode`).** A decoded tuple has the kinds of the columns.
-/

namespace Conjunct

/-- A declared relation. -/
structure Relation where
  name : String
  columns : List Kind
  deriving DecidableEq

namespace Relation

/-- The number of columns. -/
def arity (r : Relation) : Nat :=
  r.columns.length

/-! ## Fields -/

/-- The fields of a line, without the blanks around them. -/
def splitFields (line : List Char) : List (List Char) :=
  (line.splitOn ',').map Text.trim

/-- The text between two single quotes. -/
def unquote? : List Char → Option (List Char)
  | '\'' :: rest => if rest.getLast? = some '\'' then some rest.dropLast else none
  | _ => none

/-- Read a field of a column of the given kind. -/
def readField? : Kind → List Char → Option Constant
  | .int, text => (Integer.read? text).map .integer
  | .string, text => (unquote? text).map (.string ∘ String.ofList)

/-- What is wrong with a field that cannot be read; fields are counted from one. -/
def fieldFault (kind : Kind) (number : Nat) (text : List Char) : String :=
  let field := "field " ++ toString number
  match kind with
  | .int => field ++ " '" ++ String.ofList text ++ "' is not an int"
  | .string => field ++ " " ++ String.ofList text ++ " is not a quoted string"

/-! ## Lines -/

/-- Read the fields of a line against the columns, from the field with the given number on. -/
def decodeFields (fault : String → EvalError) :
    Nat → List Kind → List (List Char) → Except EvalError Tuple
  | number, kind :: kinds, text :: texts =>
    match readField? kind text with
    | none => .error (fault (fieldFault kind number text))
    | some c => (decodeFields fault (number + 1) kinds texts).map (c :: ·)
  | _, _, _ => .ok []

/-- Read a line of a relation's file. The number of its fields is checked before any of them is
read. -/
def decode (r : Relation) (row : Nat) (line : List Char) : Except EvalError Tuple :=
  let texts := splitFields line
  if texts.length = r.arity then
    decodeFields (.badField r.name row) 1 r.columns texts
  else
    .error (.arityMismatch r.name row r.arity texts.length)

theorem kind_of_readField? {kind : Kind} {text : List Char} {c : Constant}
    (h : readField? kind text = some c) : c.kind = kind := by
  cases kind with
  | int =>
    obtain ⟨n, _, rfl⟩ := Option.map_eq_some_iff.mp h
    rfl
  | string =>
    obtain ⟨s, _, rfl⟩ := Option.map_eq_some_iff.mp h
    rfl

theorem kinds_of_decodeFields {fault : String → EvalError} {number : Nat} {kinds : List Kind}
    {texts : List (List Char)} {t : Tuple} (hlen : texts.length = kinds.length)
    (h : decodeFields fault number kinds texts = .ok t) : t.map Constant.kind = kinds := by
  induction kinds generalizing number texts t with
  | nil =>
    rw [decodeFields.eq_2 _ _ _ _ (by simp)] at h
    cases h
    rfl
  | cons kind kinds ih =>
    cases texts with
    | nil => simp at hlen
    | cons text texts =>
      rw [decodeFields] at h
      split at h
      · cases h
      · next c hc =>
        cases hrest : decodeFields fault (number + 1) kinds texts with
        | error e => simp [hrest, Except.map] at h
        | ok rest =>
          simp only [hrest, Except.map, Except.ok.injEq] at h
          rw [← h, List.map_cons, kind_of_readField? hc, ih (by simpa using hlen) hrest]

theorem kinds_of_decode {r : Relation} {row : Nat} {line : List Char} {t : Tuple}
    (h : r.decode row line = .ok t) : t.map Constant.kind = r.columns := by
  simp only [decode] at h
  split at h
  · next hlen => exact kinds_of_decodeFields hlen h
  · cases h

end Relation

end Conjunct
