import Conjunct.Json.Quoted
import Conjunct.Text.Decimal

/-!
# Logs

A log is a list of records and a threshold. A record has a severity, the name of an event and some
fields; it is kept if its severity reaches the threshold at the moment when it is offered. Each
record is written as one line, a JSON object: the event, the severity, and the fields in the order
of their names.

A *scope* is a stretch of work with a beginning and an end. It leaves a record at both, and the
one at the end tells how it ended.
-/

namespace Conjunct

/-! ## Severities -/

/-- How much a record matters. -/
inductive Severity where
  | trace
  | info
  | warn
  | error
  | fatal
  deriving DecidableEq

namespace Severity

/-- The severities as numbers, from the least to the greatest. -/
def level : Severity → Nat
  | trace => 0
  | info => 1
  | warn => 2
  | error => 3
  | fatal => 4

/-- The word for a severity. -/
def name : Severity → String
  | trace => "TRACE"
  | info => "INFO"
  | warn => "WARN"
  | error => "ERROR"
  | fatal => "FATAL"

/-- A letter of the English alphabet as a capital, any other character as it is. -/
def capital (c : Char) : Char :=
  if 'a' ≤ c ∧ c ≤ 'z' then Char.ofNat (c.toNat - 'a'.toNat + 'A'.toNat) else c

/-- The severity that a word names, in capitals or not. -/
def ofName? (word : String) : Option Severity :=
  let letters := word.toList.map capital
  [trace, info, warn, error, fatal].find? (·.name.toList = letters)

/-- Whether a severity reaches a threshold. -/
def reaches (s threshold : Severity) : Bool :=
  threshold.level ≤ s.level

/-- The lesser of two severities. -/
def atMost (s bound : Severity) : Severity :=
  if bound.reaches s then s else bound

end Severity

/-! ## Events -/

/-- The events that the commands report. -/
inductive Event where
  | configLoaded
  | catalogLoaded
  | queryParsed
  | queryPlanned
  | queryComplete
  | queryRejected
  | minimizeAtomRemoved
  | minimizeComplete
  | explainComplete
  deriving DecidableEq

namespace Event

/-- The stable name of an event. -/
def name : Event → String
  | configLoaded => "CONFIG_LOADED"
  | catalogLoaded => "CATALOG_LOADED"
  | queryParsed => "QUERY_PARSED"
  | queryPlanned => "QUERY_PLANNED"
  | queryComplete => "QUERY_COMPLETE"
  | queryRejected => "QUERY_REJECTED"
  | minimizeAtomRemoved => "MINIMIZE_ATOM_REMOVED"
  | minimizeComplete => "MINIMIZE_COMPLETE"
  | explainComplete => "EXPLAIN_COMPLETE"

/-- Whether an event reports the failure of a command. -/
def isFatal : Event → Bool
  | queryRejected => true
  | _ => false

/-- The severity of an event. -/
def severity (e : Event) : Severity :=
  if e.isFatal then .fatal else .info

end Event

/-! ## Records -/

/-- The names and values of a record's fields. -/
abbrev Fields := List (String × String)

/-- A report of something that happened. -/
structure Record where
  severity : Severity
  event : String
  fields : Fields
  /-- Whether the record also tells how long a scope took. -/
  timed : Bool
  deriving DecidableEq

namespace Record

/-- The fields of a record, given how many milliseconds its scope took. -/
def allFields (r : Record) (elapsed : Nat) : Fields :=
  if r.timed then r.fields ++ [("elapsed_ms", toString elapsed)] else r.fields

/-- The line for a record. Fields of one name keep their order. -/
def render (r : Record) (elapsed : Nat) : String :=
  Json.quoteObject <| ("event", r.event) :: ("severity", r.severity.name) ::
    (r.allFields elapsed).mergeSort fun a b => a.1 ≤ b.1

end Record

/-! ## Logs -/

/-- The records so far and the least severity that further ones need. -/
structure Log where
  threshold : Severity
  records : List Record
  deriving DecidableEq

namespace Log

/-- A log without records, for warnings and worse. -/
def empty : Log :=
  ⟨.warn, []⟩

/-- Set the threshold for what follows. -/
def setThreshold (log : Log) (threshold : Severity) : Log :=
  { log with threshold }

/-- Offer a record. -/
def offer (log : Log) (r : Record) : Log :=
  if r.severity.reaches log.threshold then { log with records := log.records ++ [r] } else log

/-- Offer a record without timing. -/
def add (log : Log) (severity : Severity) (event : String) (fields : Fields) : Log :=
  log.offer ⟨severity, event, fields, false⟩

/-- Report an event. -/
def report (log : Log) (e : Event) (fields : Fields) : Log :=
  log.add e.severity e.name fields

/-- The lines for the records. -/
def lines (log : Log) (elapsed : Nat) : List String :=
  log.records.map (·.render elapsed)

end Log

/-! ## Scopes -/

/-- A stretch of work that is under way. -/
structure Scope where
  name : String
  fields : Fields
  deriving DecidableEq

namespace Scope

/-- Begin a scope. -/
def begin (log : Log) (s : Scope) : Log :=
  log.add .info (s.name ++ "_BEGIN") s.fields

/-- End a scope with success; the record repeats the fields of the beginning. -/
def complete (log : Log) (s : Scope) (extra : Fields) : Log :=
  log.offer ⟨.info, s.name ++ "_COMPLETE", s.fields ++ extra, true⟩

/-- End a scope with a failure. -/
def fail (log : Log) (s : Scope) (reason : String) : Log :=
  log.add .error (s.name ++ "_FAILED") [("reason", reason)]

/-- End a scope without saying how it went. -/
def abandon (log : Log) (s : Scope) : Log :=
  log.add .warn (s.name ++ "_INCOMPLETE") [("reason", "scope dropped without completion")]

end Scope

end Conjunct
