import Conjunct.Text.Decimal

/-!
# Constants

A constant is an integer or a string, and its *kind* says which. Columns of relations are declared
with the same two kinds.

Constants are ordered within their kind only (`Constant.compare?`): integers by value, strings by
their characters. A string is written between single quotes and cannot be written if it holds one.
-/

namespace Conjunct

/-! ## Kinds -/

/-- The kinds of constants. -/
inductive Kind where
  | int
  | string
  deriving DecidableEq

namespace Kind

/-- The word for a kind, as a schema spells it. -/
def name : Kind → String
  | int => "int"
  | string => "string"

/-- The kind that a word names. -/
def ofName? (word : String) : Option Kind :=
  if word = "int" then some int
  else if word = "string" then some string
  else none

theorem ofName?_name (k : Kind) : ofName? k.name = some k := by
  cases k <;> rfl

theorem ofName?_eq_some_iff {word : String} {k : Kind} : ofName? word = some k ↔ word = k.name := by
  constructor
  · intro h
    unfold ofName? at h
    split at h
    · next hw =>
      cases h
      exact hw
    · split at h
      · next hw =>
        cases h
        exact hw
      · cases h
  · rintro rfl
    exact ofName?_name k

end Kind

/-! ## Constants -/

/-- A value of a field. -/
inductive Constant where
  | integer (value : Integer)
  | string (value : String)
  deriving DecidableEq

namespace Constant

/-- The kind of a constant. -/
def kind : Constant → Kind
  | integer _ => .int
  | string _ => .string

/-- The value of an integer constant. -/
def integer? : Constant → Option Integer
  | integer n => some n
  | string _ => none

/-- How two constants of one kind are ordered; constants of different kinds are not. -/
def compare? : Constant → Constant → Option Ordering
  | integer a, integer b => some (compare a.toInt b.toInt)
  | string a, string b => some (compare a b)
  | integer _, string _ => none
  | string _, integer _ => none

/-- The text of a constant: the digits of an integer, a string between single quotes. -/
def render : Constant → String
  | integer n => String.ofList n.render
  | string s => "'" ++ s ++ "'"

end Constant

end Conjunct
