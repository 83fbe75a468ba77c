import Conjunct.Command.Arguments
import Conjunct.Command.Failure
import Conjunct.Command.Settings
import Conjunct.Plan.Outline
import Conjunct.Storage.Output

/-!
# Commands

A session is what commands work on: the files, the log, and what has been printed. A command
changes the session and fails or returns a result; what it has changed before a failure stays.

* `evaluate` writes the answers to a query into a file, a tuple a line.
* `minimizeFile` writes a minimized query into a file.
* `explain` outlines the plan of a query.

Each reports its steps. Evaluating and minimizing are scopes, which end with a result or a reason.
-/

namespace Conjunct

/-- The world of a command. -/
structure Session where
  storage : Storage
  log : Log
  printed : String

/-- A command that returns a value of type `α`. -/
abbrev CommandM (α : Type) := ExceptT Failure (StateM Session) α

namespace CommandM

variable {α : Type}

/-! ## Steps -/

/-- Change the log. -/
def logging (f : Log → Log) : CommandM Unit :=
  modify fun s => { s with log := f s.log }

/-- Report an event. -/
def report (e : Event) (fields : Fields) : CommandM Unit :=
  logging (·.report e fields)

/-- Fail at a stage if the stage has failed. -/
def atStage {ε : Type} (stage : ε → Failure) : Except ε α → CommandM α
  | .ok a => pure a
  | .error e => throw (stage e)

/-- Run a command as a scope; `summary` describes its result. -/
def within (scope : Scope) (summary : α → String) (command : CommandM α) : CommandM α := do
  logging scope.begin
  let attempt : CommandM α := do
    let a ← command
    logging fun log => scope.complete log [("result", summary a)]
    return a
  tryCatch attempt fun failure => do
    logging fun log => scope.fail log failure.message
    throw failure

/-- Read the query in a file. -/
def loadQuery (path : Path) : CommandM Query := do
  let storage := (← get).storage
  let text ← atStage (fun e => .parse (.unreadable path e.message)) (storage.readText path)
  let query ← atStage .parse (Query.read text)
  report .queryParsed [("atoms", toString query.body.length), ("query", query.render)]
  return query

/-- Read the catalog of a database. -/
def loadCatalog (layout : Layout) (database : Path) : CommandM Catalog := do
  let storage := (← get).storage
  let catalog ← atStage .catalog (Catalog.load storage database layout)
  report .catalogLoaded [("relations", toString catalog.relations.length)]
  return catalog

/-- Plan a query. -/
def planQuery (catalog : Catalog) (query : Query) : CommandM Machine := do
  let storage := (← get).storage
  let machine ← atStage .plan (query.plan storage catalog)
  report .queryPlanned [("root", machine.plan.label)]
  return machine

/-! ## Writing answers -/

/-- Open a file for writing. -/
def createOutput (path : Path) : CommandM Storage.Output := do
  let storage := (← get).storage
  let (target, storage) ← atStage (fun e => .output path e.message) (storage.create path)
  modify fun s => { s with storage }
  return ⟨target, ""⟩

/-- Write a tuple to an output; also count the tuples. -/
def writeTuple (path : Path) (written : Storage.Output × Nat) (t : Tuple) :
    (Storage.Output × Nat) × Option EvalError :=
  match written.1.write (t.render ++ "\n") with
  | .ok output => ((output, written.2 + 1), none)
  | .error e => (written, some (.sinkFailed (path ++ ": " ++ e.message)))

/-- Write all tuples of a machine to a file and count them. The file keeps what was written before
a failure. -/
def writeTuples (machine : Machine) (path : Path) : CommandM Nat := do
  let output ← createOutput path
  let storage := (← get).storage
  let (((output, count), error?), _) := machine.drain storage (writeTuple path) (output, 0)
  modify fun s => { s with storage := output.close s.storage }
  if let some e := error? then
    throw (.execute e)
  atStage (fun e => .output path e.message) output.flush
  return count

/-! ## Commands -/

/-- Minimize a query, and report every atom that is taken away. -/
def minimizeQuery (query : Query) : CommandM Query := do
  let (minimized, removals) ← atStage .minimize query.minimize
  removals.forM fun r =>
    report .minimizeAtomRemoved [("atom", r.atom), ("position", toString r.position)]
  return minimized

/-- Write the answers to the query in a file into another file; the result is their number. -/
def evaluate (settings : Settings) (database input output : Path) : CommandM Nat :=
  within ⟨"EVALUATE", [("input", input)]⟩ (fun count => toString count ++ " tuples") do
    let query ← loadQuery input
    let catalog ← loadCatalog settings.toLayout database
    let machine ← planQuery catalog query
    let count ← writeTuples machine output
    report .queryComplete [("tuples", toString count)]
    return count

/-- Write the minimized form of the query in a file into another file. -/
def minimizeFile (input output : Path) : CommandM Query :=
  within ⟨"MINIMIZE", [("input", input)]⟩ Query.render do
    let query ← loadQuery input
    let minimized ← minimizeQuery query
    let storage ← atStage (fun e => .output output e.message)
      ((← get).storage.writeText output (minimized.render ++ "\n"))
    modify fun s => { s with storage }
    report .minimizeComplete [("atoms_after", toString minimized.body.length),
      ("atoms_before", toString query.body.length)]
    return minimized

/-- Outline the plan of the query in a file. -/
def explain (settings : Settings) (database input : Path) : CommandM Outline := do
  let query ← loadQuery input
  let catalog ← loadCatalog settings.toLayout database
  let machine ← planQuery catalog query
  let outline := Outline.ofPlan query machine.plan
  report .explainComplete [("operators", toString outline.operators.length)]
  return outline

/-! ## Invocations -/

/-- Print a text. -/
def print (text : String) : CommandM Unit :=
  modify fun s => { s with printed := s.printed ++ text }

/-- Carry out a command. -/
def perform (settings : Settings) : Command → CommandM Unit
  | .evaluate database input output => do
    let _ ← evaluate settings database input output
  | .minimize input output => do
    let _ ← minimizeFile input output
  | .explain database input => do
    print (← explain settings database input).render

/-- Carry out an invocation: settle the settings and the threshold of the log first. -/
def invoke (i : Invocation) : CommandM Unit := do
  let storage := (← get).storage
  let settings ← atStage (fun e => .config e.message) (Settings.load storage i.config)
  let severity ← atStage (fun e => .config e.message) settings.severity
  let threshold := if i.verbose then severity.atMost .info else severity
  logging (·.setThreshold threshold)
  report .configLoaded [("log_level", threshold.name)]
  perform settings i.command

/-- Report the failure of an invocation. -/
def reportFailure (f : Failure) : CommandM Unit :=
  report .queryRejected [("reason", f.message), ("stage", f.stage)]

end CommandM

end Conjunct
