import Conjunct.Text.Decimal

/-!
# Errors of evaluation

What can go wrong while a plan is built or run. Each cause has a stable code and belongs to one of
three classes: the data are at fault, the plan is at fault, or a file or device is.
-/

namespace Conjunct

/-- The reasons for which evaluation stops. -/
inductive EvalError where
  /-- A row of a relation has a wrong number of fields. -/
  | arityMismatch (relation : String) (row expected found : Nat)
  /-- A field of a row does not have the form that its column asks for. -/
  | badField (relation : String) (row : Nat) (reason : String)
  /-- A schema has no position for a term. -/
  | termUnresolved (term schema : String)
  /-- A factor of an aggregate has a value of another kind. -/
  | aggregateNotInteger (term found : String)
  /-- A product or a sum is no word. -/
  | aggregateOverflow (aggregate : String)
  /-- The file of a relation cannot be opened or read. -/
  | relationUnavailable (path reason : String)
  /-- The receiver of the tuples refused one. -/
  | sinkFailed (reason : String)
  /-- A tuple is too short for the positions asked of it. -/
  | tupleTooShort (length : Nat)
  deriving DecidableEq

namespace EvalError

/-- Where the fault lies. -/
inductive Class where
  | data
  | logical
  | resource
  deriving DecidableEq

/-- The word for a class. -/
def Class.name : Class → String
  | data => "DATA"
  | logical => "LOGICAL"
  | resource => "RESOURCE"

/-- The stable code of an error. -/
def code : EvalError → String
  | arityMismatch .. => "MINIBASE_DATA_ARITY_MISMATCH"
  | badField .. => "MINIBASE_DATA_BAD_FIELD"
  | termUnresolved .. => "MINIBASE_TERM_UNRESOLVED"
  | aggregateNotInteger .. => "MINIBASE_AGGREGATE_NOT_INTEGER"
  | aggregateOverflow .. => "MINIBASE_AGGREGATE_OVERFLOW"
  | relationUnavailable .. => "MINIBASE_RELATION_UNAVAILABLE"
  | sinkFailed .. => "MINIBASE_SINK_FAILED"
  | tupleTooShort .. => "MINIBASE_TUPLE_TOO_SHORT"

/-- The class of an error. -/
def errorClass : EvalError → Class
  | arityMismatch .. | badField .. => .data
  | termUnresolved .. | aggregateNotInteger .. | aggregateOverflow .. | tupleTooShort .. => .logical
  | relationUnavailable .. | sinkFailed .. => .resource

/-- The row of a relation at which the error arose. -/
def row? : EvalError → Option Nat
  | arityMismatch _ row _ _ | badField _ row _ => some row
  | _ => none

/-- What happened, in words. -/
def message : EvalError → String
  | arityMismatch relation _ expected found =>
    "Relation '" ++ relation ++ "' row has " ++ toString found ++
      " fields, schema declares " ++ toString expected
  | badField relation _ reason => "Relation '" ++ relation ++ "': " ++ reason
  | termUnresolved term schema => "Term '" ++ term ++ "' does not occur in schema " ++ schema
  | aggregateNotInteger term found =>
    "SUM input '" ++ term ++ "' is not an integer (found " ++ found ++ ")"
  | aggregateOverflow aggregate => aggregate ++ " overflows a 64-bit integer"
  | relationUnavailable path reason => "Cannot read relation file " ++ path ++ ": " ++ reason
  | sinkFailed reason => "Cannot write result tuple: " ++ reason
  | tupleTooShort length =>
    "Tuple of " ++ toString length ++ " fields is shorter than its schema"

/-- The full text of an error: its code, its class, what happened, and the row if there is one. -/
def render (e : EvalError) : String :=
  let place := match e.row? with
    | some row => " at row " ++ toString row
    | none => ""
  "[FATAL] " ++ e.code ++ " (" ++ e.errorClass.name ++ "): " ++ e.message ++ place

end EvalError

end Conjunct
