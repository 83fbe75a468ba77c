import Conjunct.Relation
import Conjunct.Storage.Reader

/-!
# Catalogs

A catalog knows the relations of a database: their columns, and the files that hold their tuples.
It is read from a schema file, which declares one relation a line, by its name and the kinds of
its columns; blank lines do not count. No relation is declared twice.

**Theorem (`Catalog.nodup_names`).** The names in a catalog that could be built are distinct.
-/

namespace Conjunct

/-! ## Errors -/

/-- The reasons for which a catalog cannot be built. -/
inductive CatalogError where
  | unreadable (path reason : String)
  | malformed (line : Nat) (reason : String)
  | unknownType (line : Nat) (word : String)
  | duplicateRelation (line : Nat) (name : String)
  deriving DecidableEq

namespace CatalogError

/-- The stable code of an error. -/
def code : CatalogError → String
  | unreadable .. => "MINIBASE_CATALOG_UNREADABLE"
  | malformed .. => "MINIBASE_CATALOG_MALFORMED"
  | unknownType .. => "MINIBASE_CATALOG_UNKNOWN_TYPE"
  | duplicateRelation .. => "MINIBASE_CATALOG_DUPLICATE_RELATION"

/-- The line of the schema at which the error arose. -/
def line? : CatalogError → Option Nat
  | unreadable .. => none
  | malformed line _ | unknownType line _ | duplicateRelation line _ => some line

/-- What happened, in words. -/
def message : CatalogError → String
  | unreadable path reason => "Cannot read schema file " ++ path ++ ": " ++ reason
  | malformed _ reason => reason
  | unknownType _ word =>
    "Unknown column type '" ++ word ++ "' (expected 'int' or 'string')"
  | duplicateRelation _ name => "Relation '" ++ name ++ "' is declared more than once"

/-- The full text of an error: its code, what happened, and the line if there is one. -/
def render (e : CatalogError) : String :=
  let place := match e.line? with
    | some line => " (schema line " ++ toString line ++ ")"
    | none => ""
  "[FATAL] " ++ e.code ++ ": " ++ e.message ++ place

end CatalogError

/-! ## Layout -/

/-- Where the parts of a database lie below its directory. -/
structure Layout where
  schemaFile : String := "schema.txt"
  dataDir : String := "files"
  dataExtension : String := "csv"
  deriving DecidableEq

/-! ## Catalogs -/

/-- The relations of a database, in the order of their declaration. -/
structure Catalog where
  root : Path
  layout : Layout
  relations : List Relation

namespace Catalog

/-- The relation with the given name. -/
def relation? (c : Catalog) (name : String) : Option Relation :=
  c.relations.find? (·.name = name)

/-- The names of the relations, in alphabetical order. -/
def names (c : Catalog) : List String :=
  (c.relations.map Relation.name).mergeSort (· ≤ ·)

/-- The file that holds the tuples of the relation with the given name. -/
def relationPath (c : Catalog) (name : String) : Path :=
  (c.root.join c.layout.dataDir).join (name ++ "." ++ c.layout.dataExtension)

/-! ## Building -/

/-- Declare a further relation; `line` is where it is declared. -/
def declare (relations : List Relation) (line : Nat) (r : Relation) :
    Except CatalogError (List Relation) :=
  if r.name ∈ relations.map Relation.name then .error (.duplicateRelation line r.name)
  else .ok (relations ++ [r])

/-- Declare relations one after the other, counting from the given line. -/
def declareAll (relations : List Relation) (line : Nat) :
    List Relation → Except CatalogError (List Relation)
  | [] => .ok relations
  | r :: rest => do
    let relations ← declare relations line r
    declareAll relations (line + 1) rest

/-- The catalog of the given relations. -/
def ofRelations (root : Path) (layout : Layout) (relations : List Relation) :
    Except CatalogError Catalog :=
  (declareAll [] 1 relations).map (⟨root, layout, ·⟩)

/-- The kinds that words name. -/
def readKinds (line : Nat) : List String → Except CatalogError (List Kind)
  | [] => .ok []
  | word :: words =>
    match Kind.ofName? word with
    | none => .error (.unknownType line word)
    | some kind => (readKinds line words).map (kind :: ·)

/-- Read the declaration of a relation from its words. -/
def readDeclaration (line : Nat) : List String → Except CatalogError Relation
  | [] => .error (.malformed line "Missing relation name")
  | name :: words =>
    match readKinds line words with
    | .error e => .error e
    | .ok [] => .error (.malformed line ("Relation '" ++ name ++ "' declares no columns"))
    | .ok columns => .ok ⟨name, columns⟩

/-- Read the lines of a schema, counting from the given line. -/
def readLines (relations : List Relation) (line : Nat) :
    List (List Char) → Except CatalogError (List Relation)
  | [] => .ok relations
  | text :: rest =>
    if Text.words text = [] then
      readLines relations (line + 1) rest
    else do
      let r ← readDeclaration line ((Text.words text).map String.ofList)
      let relations ← declare relations line r
      readLines relations (line + 1) rest

/-- Read the catalog of the database in a directory. -/
def load (store : Storage) (root : Path) (layout : Layout) : Except CatalogError Catalog :=
  let path := root.join layout.schemaFile
  match store.readText path with
  | .error e => .error (.unreadable path e.message)
  | .ok text => (readLines [] 1 (Text.lines text)).map (⟨root, layout, ·⟩)

theorem load_of_readText {store : Storage} {root : Path} {layout : Layout} {text : String}
    (h : store.readText (root.join layout.schemaFile) = .ok text) :
    load store root layout = (readLines [] 1 (Text.lines text)).map (⟨root, layout, ·⟩) := by
  unfold load
  dsimp only
  rw [h]

/-- The catalog that a schema file is read as. -/
theorem load_of_find {store : Storage} {root : Path} {layout : Layout} {place : Place}
    {number : Nat} {relations : List Relation} (text : String)
    (hfind : store.find (root.join layout.schemaFile) = .ok (place, .file number))
    (hcontent : store.content number = text.toUTF8)
    (hlines : readLines [] 1 (Text.lines text) = .ok relations) :
    load store root layout = .ok ⟨root, layout, relations⟩ := by
  rw [load_of_readText (Storage.readText_of_find hfind hcontent), hlines]
  rfl

/-! ## Distinct names -/

theorem nodup_declare {relations relations' : List Relation} {line : Nat} {r : Relation}
    (h : declare relations line r = .ok relations')
    (hnodup : (relations.map Relation.name).Nodup) : (relations'.map Relation.name).Nodup := by
  unfold declare at h
  split at h
  · cases h
  · next hnew =>
    cases h
    rw [List.map_append, List.nodup_append]
    refine ⟨hnodup, by simp, ?_⟩
    intro a ha b hb hab
    simp only [List.map_cons, List.map_nil, List.mem_singleton] at hb
    exact hnew (hb ▸ hab ▸ ha)

theorem nodup_readLines {relations relations' : List Relation} {line : Nat}
    {texts : List (List Char)} (h : readLines relations line texts = .ok relations')
    (hnodup : (relations.map Relation.name).Nodup) : (relations'.map Relation.name).Nodup := by
  induction texts generalizing relations line with
  | nil =>
    cases h
    exact hnodup
  | cons text texts ih =>
    rw [readLines] at h
    split at h
    · exact ih h hnodup
    · cases hread : readDeclaration line ((Text.words text).map String.ofList) with
      | error e =>
        rw [hread] at h
        cases h
      | ok r =>
        rw [hread] at h
        cases hdecl : declare relations line r with
        | error e =>
          dsimp only [bind, Except.bind] at h
          rw [hdecl] at h
          cases h
        | ok next =>
          dsimp only [bind, Except.bind] at h
          rw [hdecl] at h
          exact ih h (nodup_declare hdecl hnodup)

theorem nodup_names {store : Storage} {root : Path} {layout : Layout} {c : Catalog}
    (h : load store root layout = .ok c) : (c.relations.map Relation.name).Nodup := by
  unfold load at h
  dsimp only at h
  split at h
  · cases h
  · next text _ =>
    cases hlines : readLines [] 1 (Text.lines text) with
    | error e =>
      rw [hlines] at h
      cases h
    | ok relations =>
      rw [hlines] at h
      cases h
      exact nodup_readLines hlines List.nodup_nil

end Catalog

end Conjunct
