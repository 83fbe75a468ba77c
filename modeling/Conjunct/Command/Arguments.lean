import Conjunct.Command.Manual
import Conjunct.Storage.Path

/-!
# Arguments

The command line: two options that may stand anywhere, and one of three commands with a fixed
number of paths. Arguments are read from left to right, at two levels: up to the name of a command,
and behind it.

A value is *pending* between the argument that gives it and the next one that is no value; only
then is it checked and kept. So of two faults in a command line the one that is reported depends on
which is met first, and this order is part of the interface.
-/

namespace Conjunct

/-! ## Commands -/

/-- What to do, on which files. -/
inductive Command where
  | evaluate (database input output : Path)
  | minimize (input output : Path)
  | explain (database input : Path)
  deriving DecidableEq

/-- A complete command line. -/
structure Invocation where
  config : Option Path
  verbose : Bool
  command : Command
  deriving DecidableEq

/-- The reasons for which a command line is not carried out. -/
inductive UsageError where
  | missingRequiredArgument
  | unknownArgument
  | invalidSubcommand
  | invalidValue
  | tooManyValues
  | argumentConflict
  | missingSubcommand
  /-- Help is asked for. -/
  | displayHelp (topic : Topic)
  /-- There is nothing to do, and help may be wanted. -/
  | displayHelpOnMissing
  /-- The version is asked for. -/
  | displayVersion
  deriving DecidableEq

namespace UsageError

/-- The name of an error. -/
def name : UsageError → String
  | missingRequiredArgument => "MissingRequiredArgument"
  | unknownArgument => "UnknownArgument"
  | invalidSubcommand => "InvalidSubcommand"
  | invalidValue => "InvalidValue"
  | tooManyValues => "TooManyValues"
  | argumentConflict => "ArgumentConflict"
  | missingSubcommand => "MissingSubcommand"
  | displayHelp _ => "DisplayHelp"
  | displayHelpOnMissing => "DisplayHelpOnMissingArgumentOrSubcommand"
  | displayVersion => "DisplayVersion"

/-- The exit code for an error: what was asked for is no failure. -/
def exitCode : UsageError → Nat
  | displayHelp _ | displayVersion => 0
  | _ => 2

end UsageError

namespace Arguments

/-! ## Levels -/

/-- A value that has not been checked and kept yet. -/
inductive Pending where
  | nothing
  /-- The option for the settings has been named, and its value is to come. -/
  | awaiting
  | config (value : String)
  | positional (value : String)

/-- What has been read at one level. -/
structure Level where
  config : Option Path := none
  verbose : Bool := false
  paths : List Path := []
  pending : Pending := .nothing
  /-- Whether the mark behind which everything is a value has been passed. -/
  trailing : Bool := false

namespace Level

/-- Check and keep what is pending. -/
def settle (l : Level) : Except UsageError Level :=
  match l.pending with
  | .nothing => .ok l
  | .awaiting => .error .invalidValue
  | .config value =>
    if l.config.isSome then .error .argumentConflict
    else if value = "" then .error .invalidValue
    else .ok { l with config := some value, pending := .nothing }
  | .positional value =>
    if value = "" then .error .invalidValue
    else .ok { l with paths := l.paths ++ [value], pending := .nothing }

/-- The number of paths that have been given. -/
def given (l : Level) : Nat :=
  match l.pending with
  | .positional _ => l.paths.length + 1
  | _ => l.paths.length

/-- Take in the flag for more reports. -/
def setVerbose (l : Level) : Except UsageError Level := do
  let l ← l.settle
  if l.verbose then .error .argumentConflict else return { l with verbose := true }

/-- Take in a row of one-letter flags. The topic is what the level is about: the version can only be
asked for where it is the program. -/
def setFlags (topic : Topic) (l : Level) : List Char → Except UsageError Level
  | [] => .ok l
  | 'v' :: flags => do
    let l ← l.setVerbose
    l.setFlags topic flags
  | 'h' :: _ => do
    let _ ← l.settle
    .error (.displayHelp topic)
  | 'V' :: _ => do
    if topic ≠ .program then
      .error .unknownArgument
    let _ ← l.settle
    .error .displayVersion
  | _ :: _ => .error .unknownArgument

/-- Take in an option with a long name, and with a value if an equals sign follows the name. -/
def setOption (topic : Topic) (l : Level) (name : String) (value : Option String) :
    Except UsageError Level :=
  let flag (result : Except UsageError Level) : Except UsageError Level :=
    if value.isSome then .error .tooManyValues else result
  match name with
  | "config" => do
    let l ← l.settle
    match value with
    | some value => Level.settle { l with pending := .config value }
    | none => return { l with pending := .awaiting }
  | "verbose" => flag l.setVerbose
  | "help" => flag (l.settle.bind fun _ => .error (.displayHelp topic))
  | "version" =>
    if topic = .program then flag (l.settle.bind fun _ => .error .displayVersion)
    else .error .unknownArgument
  | _ => .error .unknownArgument

/-- Take in an argument that begins with a hyphen, if it is a flag or an option. -/
def takeOption? (topic : Topic) (l : Level) (arg : String) : Option (Except UsageError Level) :=
  match arg.toList with
  | ['-', '-'] => some (.ok { l with trailing := true })
  | '-' :: '-' :: text =>
    let name := String.ofList (text.takeWhile (· ≠ '='))
    let value := match text.dropWhile (· ≠ '=') with
      | _ :: value => some (String.ofList value)
      | [] => none
    some (l.setOption topic name value)
  | '-' :: flag :: flags => some (l.setFlags topic (flag :: flags))
  | _ => none

end Level

/-! ## Behind the name of a command -/

/-- Read what follows the name of a command. -/
def readPaths (c : CommandName) (l : Level) : List String → Except UsageError Level
  | [] => do
    let l ← l.settle
    if l.paths.length < c.parameters.length then .error .missingRequiredArgument else return l
  | arg :: args => do
    match if l.trailing then none else l.takeOption? (.command c) arg with
    | some result => readPaths c (← result) args
    | none =>
      match l.trailing, l.pending with
      | false, .awaiting => readPaths c { l with pending := .config arg } args
      | _, _ =>
        if l.given = c.parameters.length then
          .error .unknownArgument
        else
          let l ← l.settle
          readPaths c { l with pending := .positional arg } args

/-! ## Up to the name of a command -/

/-- The answer to a request for help on the named topics. -/
def help (names : List String) : UsageError :=
  match names with
  | [] => .displayHelp .program
  | [name] =>
    match Topic.ofName? name with
    | some topic => .displayHelp topic
    | none => .invalidSubcommand
  | _ => .invalidSubcommand

/-- The command of a given name, on paths in the order in which they were given. -/
def command? (c : CommandName) (paths : List Path) : Option Command :=
  match c, paths with
  | .evaluate, [database, input, output] => some (.evaluate database input output)
  | .minimize, [input, output] => some (.minimize input output)
  | .explain, [database, input] => some (.explain database input)
  | _, _ => none

/-- Put both levels together. -/
def assemble (c : CommandName) (outer inner : Level) : Except UsageError Invocation :=
  match command? c inner.paths with
  | some command => .ok ⟨inner.config.or outer.config, inner.verbose || outer.verbose, command⟩
  | none => .error .missingRequiredArgument

/-- Read a command line. -/
def readFrom (l : Level) : List String → Except UsageError Invocation
  | [] => do
    let l ← l.settle
    if l.config.isNone ∧ l.verbose = false then .error .displayHelpOnMissing
    else .error .missingSubcommand
  | arg :: args => do
    let awaiting := !l.trailing && match l.pending with
      | .awaiting => true
      | _ => false
    if !l.trailing && !awaiting then
      if arg = "help" then
        .error (help args)
      if let some c := CommandName.ofName? arg then
        let inner ← readPaths c {} args
        let outer ← l.settle
        return ← assemble c outer inner
    match if l.trailing then none else l.takeOption? .program arg with
    | some result => readFrom (← result) args
    | none =>
      if awaiting then
        readFrom { l with pending := .config arg } args
      else if l.trailing ∧ (Topic.ofName? arg).isSome then
        .error .unknownArgument
      else
        .error .invalidSubcommand

/-- Read the arguments of the program. -/
def read (args : List String) : Except UsageError Invocation :=
  readFrom {} args

end Arguments

end Conjunct
