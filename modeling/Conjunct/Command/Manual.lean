import Conjunct.Text.Blank

/-!
# The manual

What the commands are called, which arguments they take, and the pages that tell so: one for the
program, one for each command, and one for asking for help. A page says what its topic is for and
how it is called, and lists what may be given, each form next to what it is for.
-/

namespace Conjunct

/-! ## Commands and their arguments -/

/-- A form of writing something on the command line, and what it is for. -/
structure Item where
  form : String
  purpose : String

/-- The commands. -/
inductive CommandName where
  | evaluate
  | minimize
  | explain
  deriving DecidableEq

namespace CommandName

/-- All commands, in the order in which they are listed. -/
def all : List CommandName :=
  [evaluate, minimize, explain]

/-- The word for a command. -/
def name : CommandName → String
  | evaluate => "evaluate"
  | minimize => "minimize"
  | explain => "explain"

/-- The command that a word names. -/
def ofName? (word : String) : Option CommandName :=
  all.find? (·.name = word)

/-- What a command is for. -/
def purpose : CommandName → String
  | evaluate => "Evaluate a query against a database directory"
  | minimize => "Remove redundant body atoms from a query"
  | explain => "Print the operator tree for a query without running it"

/-- The paths that a command takes, all of them required. -/
def parameters : CommandName → List Item
  | evaluate => [database, input,
      ⟨"<OUTPUT_FILE>", "Result file, one tuple per line (truncated)"⟩]
  | minimize => [input, ⟨"<OUTPUT_FILE>", "Destination for the minimized query"⟩]
  | explain => [database, input]
where
  /-- The directory of a database. -/
  database : Item := ⟨"<DATABASE_DIR>", "Directory holding the schema file and relation files"⟩
  /-- The file of a query. -/
  input : Item := ⟨"<INPUT_FILE>", "File containing the query"⟩

end CommandName

/-- What help can be had on. -/
inductive Topic where
  | program
  | command (c : CommandName)
  | help
  deriving DecidableEq

namespace Topic

/-- The topic that a word names. -/
def ofName? (word : String) : Option Topic :=
  if word = "help" then some help else (CommandName.ofName? word).map command

end Topic

/-! ## Pages -/

/-- A page of the manual: what a topic is for, how it is called, and titled lists of what may be
given. -/
structure Page where
  purpose : String
  call : String
  lists : List (String × List Item)

namespace Page

/-- A list under its title. The purposes stand in one column, two blanks behind the longest form. -/
def renderList (title : String) (items : List Item) : String :=
  let column := (items.map (·.form.length)).foldl max 0 + 2
  let line (i : Item) :=
    "  " ++ String.ofList (i.form.toList.rightpad column ' ') ++ i.purpose ++ "\n"
  title ++ ":\n" ++ Text.joined "" (items.map line)

/-- The text of a page. -/
def render (p : Page) : String :=
  Text.joined "\n" <| [p.purpose ++ "\n", "Usage: " ++ p.call ++ "\n"] ++
    p.lists.map fun (title, items) => renderList title items

end Page

namespace Topic

/-- The word with which the program is called. -/
def callWord : String := "minibase_cli"

/-- The options that may be given anywhere. -/
def options : List Item :=
  [⟨"    --config <CONFIG>", "Path to a JSON configuration file"⟩,
    ⟨"-v, --verbose", "Log stage boundaries (INFO) to stderr"⟩,
    ⟨"-h, --help", "Print help"⟩]

/-- What the request for help is for. -/
def helpPurpose : String :=
  "Print this message or the help of the given subcommand(s)"

/-- The page on a topic. -/
def page : Topic → Page
  | program =>
    { purpose := "A minimal conjunctive query engine and query minimizer over CSV-backed relations"
      call := callWord ++ " [OPTIONS] <COMMAND>"
      lists := [
        ("Commands", CommandName.all.map (fun c => ⟨c.name, c.purpose⟩) ++ [⟨"help", helpPurpose⟩]),
        ("Options", options ++ [⟨"-V, --version", "Print version"⟩])] }
  | command c =>
    { purpose := c.purpose
      call := Text.joined " " ([callWord, c.name, "[OPTIONS]"] ++ c.parameters.map Item.form)
      lists := [("Arguments", c.parameters), ("Options", options)] }
  | help =>
    { purpose := helpPurpose
      call := callWord ++ " help [COMMAND]..."
      lists := [("Arguments", [⟨"[COMMAND]...", "Print help for the subcommand(s)"⟩])] }

end Topic

end Conjunct
