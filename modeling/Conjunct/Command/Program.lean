import Conjunct.Command.Session

/-!
# The program

From the arguments and the files to the exit code, what is printed, and the files as they are left.
The log and the reason for a failure go to a separate stream.
-/

namespace Conjunct

/-- What a run of the program leaves behind. -/
structure Outcome where
  code : Nat
  printed : String
  /-- The log, and the reason for a failure. -/
  reported : String
  storage : Storage

namespace Program

/-- The name and version of the program. -/
def version : String := "minibase 0.1.0"

/-! ## What a run reads -/

/-- The files of the relations that a query names, as far as the query and the schema can be
read. -/
def relationPaths (storage : Storage) (layout : Layout) (database input : Path) : List Path :=
  match Catalog.load storage database layout, storage.readText input with
  | .ok catalog, .ok text =>
    match Query.read text with
    | .ok query => query.atoms.map fun a => catalog.relationPath a.relation
    | .error _ => []
  | _, _ => []

/-- The paths that an invocation uses, as far as the files that name them can be read. -/
def paths (storage : Storage) (i : Invocation) : List Path :=
  match Settings.load storage i.config with
  | .error _ => i.config.toList
  | .ok settings =>
    i.config.toList ++ match i.command with
      | .evaluate database input output =>
        [input, output, database.join settings.schemaFile] ++
          relationPaths storage settings.toLayout database input
      | .minimize input output => [input, output]
      | .explain database input =>
        [input, database.join settings.schemaFile] ++
          relationPaths storage settings.toLayout database input

/-! ## Runs -/

/-- The session at the start of a run. -/
def session (storage : Storage) : Session :=
  ⟨storage, Log.empty, ""⟩

/-- Carry out an invocation and report its failure, if it fails. -/
def attempt (i : Invocation) : StateM Session (Option Failure) := do
  match ← (CommandM.invoke i).run with
  | .ok () => return none
  | .error failure =>
    let _ ← (CommandM.reportFailure failure).run
    return some failure

/-- What a command line that cannot be carried out leads to. -/
def refuse (storage : Storage) (e : UsageError) : Outcome :=
  match e with
  | .displayVersion => ⟨e.exitCode, version ++ "\n", "", storage⟩
  | .displayHelp topic => ⟨e.exitCode, topic.page.render, "", storage⟩
  | .displayHelpOnMissing => ⟨e.exitCode, "", Topic.program.page.render, storage⟩
  | _ => ⟨e.exitCode, "", "error: " ++ e.name ++ "\n", storage⟩

/-- What a run leads to that took the given number of milliseconds. -/
def conclude (failure? : Option Failure) (s : Session) (elapsed : Nat) : Outcome :=
  let reports := s.log.lines elapsed ++ (failure?.map Failure.message).toList
  ⟨if failure?.isSome then 1 else 0, s.printed, Text.joined "" (reports.map (· ++ "\n")), s.storage⟩

/-- Run the program, as if it took no time. -/
def run (args : List String) (storage : Storage) : Outcome :=
  match Arguments.read args with
  | .error e => refuse storage e
  | .ok i =>
    let (failure?, s) := (attempt i).run (session storage)
    conclude failure? s 0

end Program

end Conjunct
