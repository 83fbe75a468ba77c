import Conjunct.Catalog
import Conjunct.Json.Reader
import Conjunct.Log

/-!
# Settings

The settings of a run: the layout of databases, and the least severity to log. They are read from
a JSON file, where every setting may be missing. Either the settings are the members of an object,
in which unknown members do not count and no setting is given twice, or they are the items of an
array, in a fixed order.
-/

namespace Conjunct

/-- The layout of databases and the name of the least severity to log. -/
structure Settings extends Layout where
  logLevel : String := "WARN"
  deriving DecidableEq

namespace Settings

/-! ## Errors -/

/-- The reasons for which settings cannot be used. -/
inductive Error where
  | unreadable (path reason : String)
  /-- The file is not JSON, or not of the form that settings have. -/
  | malformed (reason : String)
  | emptySetting (name : String)
  | invalidExtension (text : String)
  | invalidLevel (text : String)
  deriving DecidableEq

/-- The text of an error. -/
def Error.message : Error → String
  | unreadable path reason => "Failed to read " ++ path ++ ": " ++ reason
  | malformed reason => "Invalid config JSON: " ++ reason
  | emptySetting name => name ++ " must not be empty"
  | invalidExtension text =>
    "Invalid data_extension: '" ++ text ++ "'. Give the bare extension, e.g. 'csv'."
  | invalidLevel text =>
    "Invalid log_level: '" ++ text ++ "'. Expected TRACE, INFO, WARN, ERROR or FATAL."

/-! ## Reading -/

/-- The names of the settings, in the order that an array gives them. -/
def names : List String :=
  ["schema_file", "data_dir", "data_extension", "log_level"]

/-- Change the setting of the given name. -/
def set (s : Settings) (name value : String) : Settings :=
  if name = "schema_file" then { s with schemaFile := value }
  else if name = "data_dir" then { s with dataDir := value }
  else if name = "data_extension" then { s with dataExtension := value }
  else if name = "log_level" then { s with logLevel := value }
  else s

/-- Take in settings that are given by name; `seen` are the names given before. -/
def setMembers (s : Settings) (seen : List String) :
    List (Option String × Json) → Except Error Settings
  | [] => .ok s
  | (none, _) :: _ => .error (.malformed "a name is not a string of characters")
  | (some name, value) :: rest =>
    if name ∉ names then
      setMembers s seen rest
    else if name ∈ seen then
      .error (.malformed ("duplicate setting " ++ name))
    else
      match value with
      | .string (some text) => setMembers (s.set name text) (name :: seen) rest
      | _ => .error (.malformed ("the setting " ++ name ++ " is not a string"))

/-- Take in settings that are given by position; `left` are the names not given yet. -/
def setItems (s : Settings) : List String → List Json → Except Error Settings
  | _, [] => .ok s
  | [], _ :: _ => .error (.malformed "there are more values than settings")
  | name :: left, .string (some text) :: rest => setItems (s.set name text) left rest
  | name :: _, _ :: _ => .error (.malformed ("the setting " ++ name ++ " is not a string"))

/-- The settings that a JSON value gives. -/
def ofJson : Json → Except Error Settings
  | .object members => setMembers {} [] members
  | .array items => setItems {} names items
  | _ => .error (.malformed "there is neither an object nor an array")

/-- The least severity to log. -/
def severity (s : Settings) : Except Error Severity :=
  match Severity.ofName? s.logLevel with
  | some severity => .ok severity
  | none => .error (.invalidLevel s.logLevel)

/-- Check the values of settings. -/
def check (s : Settings) : Except Error Unit :=
  let parts := [("schema_file", s.schemaFile), ("data_dir", s.dataDir),
    ("data_extension", s.dataExtension)]
  match parts.find? fun (_, value) => Text.isEmpty value with
  | some (name, _) => .error (.emptySetting name)
  | none =>
    if s.dataExtension.toList.any fun c => c = '.' ∨ c = '/' ∨ c = '\\' then
      .error (.invalidExtension s.dataExtension)
    else
      s.severity.map fun _ => ()

/-- Read and check the text of a file of settings. -/
def read (text : String) : Except Error Settings := do
  match Json.read? text with
  | none => .error (.malformed "the text is not JSON")
  | some value =>
    let s ← ofJson value
    s.check
    return s

/-- The settings in a file, or the usual ones if no file is given. -/
def load (store : Storage) : Option Path → Except Error Settings
  | none => .ok {}
  | some path =>
    match store.readText path with
    | .error e => .error (.unreadable path e.message)
    | .ok text => read text

/-- The text of settings, as an object. -/
def render (s : Settings) : String :=
  Json.quoteObject [("schema_file", s.schemaFile), ("data_dir", s.dataDir),
    ("data_extension", s.dataExtension), ("log_level", s.logLevel)]

end Settings

end Conjunct
