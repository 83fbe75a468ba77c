import Conjunct.Query.Grammar
import Conjunct.Text.Blank

/-!
# Reading queries

A text is a query if the grammar reads the whole of it and its head is in order. What the grammar
leaves open about a head is settled from left to right: there is at most one aggregate, and no
factor of it is a string.

A text that does not match is reported by the place where reading stopped
(`Query.ReadError.stopped`).
-/

namespace Conjunct

namespace Query

/-! ## Errors -/

/-- The reasons for which a text is not a query. -/
inductive ReadError where
  /-- There is nothing to read. -/
  | empty
  /-- Reading stopped in front of the given text. -/
  | malformed (near : String)
  /-- The head has a second aggregate. -/
  | multipleAggregates
  /-- A factor of the aggregate is a string. -/
  | invalidFactor (factor : String)
  /-- The file that should hold the query cannot be read. -/
  | unreadable (path reason : String)
  deriving DecidableEq

namespace ReadError

/-- The number of characters of a place that an error shows. -/
def shown : Nat := 40

/-- The error for a place: the beginning of the text there, without blanks around it. -/
def stopped (place : List Char) : ReadError :=
  let near := Text.trim place
  if near = [] then malformed "<end of input>"
  else if near.length ≤ shown then malformed (String.ofList near)
  else malformed (String.ofList (near.take shown) ++ "...")

/-- The text of an error. -/
def message : ReadError → String
  | empty => "query text is empty"
  | malformed near => "malformed query near `" ++ near ++ "`"
  | multipleAggregates => "head declares more than one SUM aggregate"
  | invalidFactor factor =>
    "SUM term " ++ factor ++ " must be a variable or an integer constant"
  | unreadable path reason => "failed to read query file " ++ path ++ ": " ++ reason

end ReadError

/-! ## Heads -/

/-- Whether a term is a string constant. -/
def isStringConst : Term → Bool
  | .const (.string _) => true
  | _ => false

/-- Extend a head by its next item. -/
def addItem (head : Head) : Grammar.HeadItem → Except ReadError Head
  | .output v => .ok { head with outputs := head.outputs ++ [v] }
  | .sum factors =>
    if head.sum?.isSome then
      .error .multipleAggregates
    else
      match factors.find? isStringConst with
      | some factor => .error (.invalidFactor factor.render)
      | none => .ok { head with sum? := some ⟨factors⟩ }

/-- The variables and the aggregate of a head, from its items. -/
def headOfItems (name : String) (items : List Grammar.HeadItem) : Except ReadError Head :=
  items.foldlM addItem ⟨name, [], none⟩

/-! ## Queries -/

/-- Read a query. -/
def read (text : String) : Except ReadError Query :=
  if Text.isEmpty text then
    .error .empty
  else
    match (Parser.spaced Grammar.rule).complete text.toList with
    | .error place => .error (.stopped place)
    | .ok (name, items, body) => (headOfItems name items).map (⟨·, body⟩)

end Query

end Conjunct
