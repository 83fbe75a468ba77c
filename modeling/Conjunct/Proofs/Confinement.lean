import Conjunct.Command.Settings
import Conjunct.Proofs.Apart
import Conjunct.Proofs.Lines
import Conjunct.Proofs.Opening
import Conjunct.Proofs.RoundTrip

/-!
# Confinement to the data directory

The names of relations come from two places. In a schema they may be any words, also such as
`../secret` or `/etc/passwd`; in a query they are identifiers. The path of a relation is made from
its name, and an absolute path or one with `..` in it would lead out of the data directory.

**Theorem (`Query.plan_confined`).** Whatever the schema declares, the files that are opened for a
query lie directly in the data directory. For each there is an atom of the query, and the path is
that of the data directory with a single component: the name of the atom's relation, a dot, and the
extension from the settings. Atoms of different relations have different files. No other file is
read for the plan, nor are others opened when its scans start again.

It takes four facts:

* Reading a query yields only identifiers as names of relations, and they have no slash and do not
  begin with a dot (`IsIdentifier.isComponent`).
* Settings pass their checks only if the extension has no slash and the data directory is named
  (`Settings.of_check`).
* Joining a single component to a path keeps the path in front of it (`Path.isChild_join`).
* Only the paths of the query's own atoms are opened (`Query.isPrefix_opened`).
-/

namespace Conjunct

/-! ## Children of directories -/

namespace Path

/-- A name that leads from a directory to something in it. -/
structure IsComponent (name : String) : Prop where
  ne_empty : name ≠ ""
  ne_dot : name ≠ "."
  ne_dots : name ≠ ".."
  noSlash : '/' ∉ name.toList

/-- The names in a path, without those that stay where they are. -/
def components (p : Path) : List String :=
  p.names.filter fun name => name ≠ "" ∧ name ≠ "."

/-- A path consists of a path to a directory and a name in this directory. In the text of the path
the name is the last component, after those of the directory. And wherever the path leads to
something, the other path leads to a directory, which holds it under this name. -/
structure IsChild (base path : Path) (name : String) : Prop where
  path_eq : path = base.join name
  isComponent : IsComponent name
  isAbsolute_eq : path.isAbsolute = base.isAbsolute
  components_eq : path.components = base.components ++ [name]
  leads : ∀ (store : Storage) (place : Place) (node : Node), store.find path = .ok (place, node) →
    ∃ directory, store.find base = .ok (directory, .directory) ∧ place = directory ++ [name]

/-- Two paths have the same components, or lead to the same place. -/
def Meets (store : Storage) (path path' : Path) : Prop :=
  path.components = path'.components ∨
    ∃ place node node', store.find path = .ok (place, node) ∧ store.find path' = .ok (place, node')

end Path

namespace Storage

variable {store : Storage} {directory place : Place}

/-- A path can lead somewhere if a longer one can. -/
theorem checkPath_of_append {base rest : String} (hbase : base ≠ "")
    (h : checkPath (base ++ rest) = .ok ()) : checkPath base = .ok () := by
  unfold checkPath at h
  split at h
  · cases h
  · next hclean =>
    split at h
    · cases h
    · split at h
      · cases h
      · next hshort =>
        rw [String.toList_append, List.mem_append, not_or] at hclean
        rw [String.utf8ByteSize_append] at hshort
        rw [checkPath, if_neg hclean.1, if_neg hbase, if_neg (by omega)]

/-- A single component leads from a directory to something in it. -/
theorem of_walk_component {name : String} (h : Path.IsComponent name)
    (hwalk : store.walk directory [name] = .ok place) :
    store.node? directory = some .directory ∧ place = directory ++ [name] := by
  rw [walk] at hwalk
  split at hwalk
  · next hnode =>
    obtain ⟨next, henter, hnext⟩ := exists_of_bind_eq_ok hwalk
    cases hnext
    rw [enter, if_neg (not_or.mpr ⟨h.ne_empty, h.ne_dot⟩), if_neg h.ne_dots] at henter
    split at henter
    · cases henter
    · split at henter
      · cases henter
        exact ⟨hnode, rfl⟩
      · cases henter
  · cases hwalk

/-- An empty name stays where it is. -/
theorem walk_empty (h : store.node? directory = some .directory) :
    store.walk directory [""] = .ok directory := by
  rw [walk, if_pos h, enter, if_pos (.inl rfl)]
  rfl

end Storage

namespace Path

variable {base path : Path} {name : String}

theorem IsComponent.isAbsolute_eq_false (h : IsComponent name) : isAbsolute name = false := by
  refine decide_eq_false fun hhead => h.noSlash ?_
  exact List.mem_of_mem_head? (Option.mem_def.mpr hhead)

/-- A single component is the only name in its path. -/
theorem IsComponent.names_eq (h : IsComponent name) : names name = [name] := by
  rw [names, List.splitOn_eq_singleton h.noSlash, List.map_singleton, String.ofList_toList]

/-- A slash comes between the names in front of it and those behind it. -/
theorem names_append_slash (path path' : Path) :
    names (path ++ "/" ++ path') = path.names ++ path'.names := by
  have htext : (path ++ "/" ++ path').toList = path.toList ++ '/' :: path'.toList := by simp
  rw [names, htext, List.splitOn_append_cons_self, List.map_append, names, names]

theorem exists_of_endsInSlash (h : base.endsInSlash = true) : ∃ init, base = init ++ "/" := by
  obtain ⟨init, hinit⟩ := List.getLast?_eq_some_iff.mp (of_decide_eq_true h)
  exact ⟨String.ofList init, String.toList_inj.mp (by simp [hinit])⟩

/-- A joined path has a single slash in front of the name, which may be the last character of its
first part. -/
theorem exists_join_eq (hbase : base ≠ "") (h : IsComponent name) :
    ∃ init, base.join name = init ++ "/" ++ name ∧ (base = init ∨ base = init ++ "/") := by
  have hrelative : ¬ (isAbsolute name = true ∨ base = "") := by
    simp [h.isAbsolute_eq_false, hbase]
  rw [join, if_neg hrelative]
  split
  · next hslash =>
    obtain ⟨init, rfl⟩ := exists_of_endsInSlash hslash
    exact ⟨init, rfl, .inr rfl⟩
  · exact ⟨base, rfl, .inl rfl⟩

theorem join_ne_empty (h : name ≠ "") (base : Path) : base.join name ≠ "" := by
  rw [join]
  split
  · exact h
  · next hbase =>
    rw [not_or] at hbase
    split
    · simp [hbase.2]
    · simp

theorem isAbsolute_append (hbase : base ≠ "") (rest : String) :
    isAbsolute (base ++ rest) = base.isAbsolute := by
  have hne : base.toList ≠ [] := by simpa using hbase
  obtain ⟨c, cs, hcs⟩ := List.exists_cons_of_ne_nil hne
  simp [isAbsolute, hcs]

/-- What is found under one more name is in the directory that is found without it. -/
theorem exists_find_of_names {store : Storage} {place : Place} {node : Node} {lead : List String}
    (h : IsComponent name) (hnames : path.names = lead ++ [name])
    (hbase : base.names = lead ∨ base.names = lead ++ [""])
    (habsolute : path.isAbsolute = base.isAbsolute) (hcheck : Storage.checkPath base = .ok ())
    (hfind : store.find path = .ok (place, node)) :
    ∃ directory, store.find base = .ok (directory, .directory) ∧ place = directory ++ [name] := by
  obtain ⟨-, hwalk, -⟩ := Storage.find_eq_ok_iff.mp hfind
  rw [hnames, Storage.walk_append, Storage.start, habsolute] at hwalk
  obtain ⟨directory, hdirectory, henter⟩ := exists_of_bind_eq_ok hwalk
  obtain ⟨hnode, hplace⟩ := Storage.of_walk_component h henter
  refine ⟨directory, Storage.find_eq_ok_iff.mpr ⟨hcheck, ?_, hnode⟩, hplace⟩
  rw [Storage.start]
  rcases hbase with heq | heq
  · rw [heq, hdirectory]
  · rw [heq, Storage.walk_append, hdirectory]
    exact Storage.walk_empty hnode

/-- **Joining a single component stays in the directory.** -/
theorem isChild_join (hbase : base ≠ "") (h : IsComponent name) :
    IsChild base (base.join name) name := by
  obtain ⟨init, hjoin, hinit⟩ := exists_join_eq hbase h
  have hnames : (base.join name).names = names init ++ [name] := by
    rw [hjoin, names_append_slash, h.names_eq]
  -- If the first part ends in a slash, it has an empty name where the joined path has the new one.
  have hbaseNames : base.names = names init ∨ base.names = names init ++ [""] := by
    refine hinit.imp (congrArg names) fun heq => ?_
    rw [heq, ← String.append_empty (s := init ++ "/"), names_append_slash]
    rfl
  obtain ⟨rest, hrest⟩ : ∃ rest, base.join name = base ++ rest := by
    rcases hinit with rfl | rfl
    · exact ⟨"/" ++ name, hjoin.trans (String.append_assoc ..)⟩
    · exact ⟨name, hjoin⟩
  have habsolute : (base.join name).isAbsolute = base.isAbsolute := by
    rw [hrest]
    exact isAbsolute_append hbase rest
  have hcomponents : base.components = (names init).filter fun name => name ≠ "" ∧ name ≠ "." := by
    rcases hbaseNames with heq | heq <;> simp [components, heq]
  constructor
  case path_eq => rfl
  case isComponent => exact h
  case isAbsolute_eq => exact habsolute
  case components_eq =>
    rw [components, hnames, List.filter_append, hcomponents]
    simp [h.ne_empty, h.ne_dot]
  case leads =>
    intro store place node hfind
    have hcheck := (Storage.find_eq_ok_iff.mp hfind).1
    rw [hrest] at hcheck
    exact exists_find_of_names h hnames hbaseNames habsolute
      (Storage.checkPath_of_append hbase hcheck) hfind

/-- Children with different names are different. -/
theorem IsChild.eq_of_meets {store : Storage} {path' : Path} {name' : String}
    (h : IsChild base path name) (h' : IsChild base path' name')
    (hmeets : Meets store path path') : name = name' := by
  rcases hmeets with hcomponents | ⟨place, node, node', hfind, hfind'⟩
  · rw [h.components_eq, h'.components_eq] at hcomponents
    exact List.singleton_inj.mp (List.append_cancel_left hcomponents)
  · obtain ⟨directory, hbase, hplace⟩ := h.leads store place node hfind
    obtain ⟨directory', hbase', hplace'⟩ := h'.leads store place node' hfind'
    cases hbase.symm.trans hbase'
    exact List.singleton_inj.mp (List.append_cancel_left (hplace.symm.trans hplace'))

end Path

/-! ## Settings, catalogs and names -/

/-- Settings that pass their checks have no blank value, and neither a dot nor a slash of either
kind in the extension. -/
theorem Settings.of_check {s : Settings} (h : s.check = .ok ()) :
    (Text.isEmpty s.schemaFile = false ∧ Text.isEmpty s.dataDir = false ∧
      Text.isEmpty s.dataExtension = false) ∧
    ∀ c ∈ s.dataExtension.toList, c ≠ '.' ∧ c ≠ '/' ∧ c ≠ '\\' := by
  unfold check at h
  dsimp only at h
  split at h
  · cases h
  · next hnone =>
    have hfilled := List.find?_eq_none.mp hnone
    split at h
    · cases h
    · next hplain =>
      simp only [List.forall_mem_cons, Bool.not_eq_true, List.any_eq_true, decide_eq_true_iff,
        not_exists, not_and, not_or] at hfilled hplain
      exact ⟨⟨hfilled.1, hfilled.2.1, hfilled.2.2.1⟩, hplain⟩

/-- Settings that are loaded have passed their checks, and so do the usual ones. -/
theorem Settings.check_of_load {store : Storage} {config : Option Path} {s : Settings}
    (h : load store config = .ok s) : s.check = .ok () := by
  cases config with
  | none =>
    cases h
    decide
  | some path =>
    unfold load at h
    dsimp only at h
    split at h
    · cases h
    · unfold read at h
      split at h
      · cases h
      · obtain ⟨s', -, h⟩ := exists_of_bind_eq_ok h
        obtain ⟨_, hcheck, h⟩ := exists_of_bind_eq_ok h
        cases h
        exact hcheck

theorem Catalog.of_load {store : Storage} {root : Path} {layout : Layout} {catalog : Catalog}
    (h : load store root layout = .ok catalog) : catalog.root = root ∧ catalog.layout = layout := by
  unfold load at h
  dsimp only at h
  split at h
  · cases h
  · obtain ⟨relations, -, rfl⟩ := exists_of_map_eq_ok h
    exact ⟨rfl, rfl⟩

/-- An identifier with an extension behind it is a single component. -/
theorem IsIdentifier.isComponent {name extension : String} (h : IsIdentifier name)
    (hextension : '/' ∉ extension.toList) : Path.IsComponent (name ++ "." ++ extension) := by
  obtain ⟨c, cs, hname, hstart, hrest⟩ := h
  have hfile : (name ++ "." ++ extension).toList = c :: (cs ++ '.' :: extension.toList) := by
    simp [hname]
  have hne : ∀ text : String, text.toList.head? ≠ some c → name ++ "." ++ extension ≠ text := by
    rintro text hhead rfl
    exact hhead (by rw [hfile]; rfl)
  have hdot : '.' ≠ c := by
    rintro rfl
    exact absurd hstart (by decide)
  have hslash : ∀ d, Grammar.isNameChar d = true → '/' ≠ d := by
    rintro d hd rfl
    exact absurd hd (by decide)
  refine ⟨hne "" (by simp), hne "." (by simpa using hdot), hne ".." (by simpa using hdot), ?_⟩
  rw [hfile, List.mem_cons, List.mem_append, List.mem_cons]
  rintro (hc | hc | hc | hc)
  · exact hslash c (Grammar.isNameChar_of_isNameStart hstart) hc
  · exact hslash _ (hrest _ hc) rfl
  · exact absurd hc (by decide)
  · exact hextension hc

/-! ## Confinement -/

namespace Query

variable {store files files' : Storage} {config : Option Path} {settings : Settings} {root : Path}
  {catalog : Catalog} {text : String} {q : Query}

/-- Whatever is declared, the file of an identifier lies directly in the data directory. -/
theorem isChild_relationPath (hsettings : Settings.load files config = .ok settings)
    (hcatalog : Catalog.load files' root settings.toLayout = .ok catalog) {name : String}
    (hname : IsIdentifier name) :
    Path.IsChild (root.join settings.dataDir) (catalog.relationPath name)
      (name ++ "." ++ settings.dataExtension) := by
  obtain ⟨⟨-, hdata, -⟩, hextension⟩ := Settings.of_check (Settings.check_of_load hsettings)
  obtain ⟨rfl, hlayout⟩ := Catalog.of_load hcatalog
  rw [Catalog.relationPath, hlayout]
  refine Path.isChild_join (Path.join_ne_empty ?_ _) (hname.isComponent fun hslash => ?_)
  · intro hempty
    rw [hempty] at hdata
    exact absurd hdata (by decide)
  · exact (hextension _ hslash).2.1 rfl

/-- Relations whose files have the same name, up to the extension, are the same. -/
theorem eq_of_fileName_eq {name name' extension : String}
    (h : name ++ "." ++ extension = name' ++ "." ++ extension) : name = name' := by
  rw [← String.toList_inj, String.toList_append, String.toList_append, String.toList_append,
    String.toList_append, List.append_assoc, List.append_assoc] at h
  exact String.toList_inj.mp (List.append_cancel_right h)

/-- **Queries stay in the data directory.** Every file that is opened to plan a query lies directly
in the data directory, under the name of a relation of the query and the extension from the
settings, and files of different relations are different. The files on record are all that the plan
depends on, and all that its scans open again. -/
theorem plan_confined (hsettings : Settings.load files config = .ok settings)
    (hcatalog : Catalog.load files' root settings.toLayout = .ok catalog)
    (hread : read text = .ok q) (store : Storage) :
    (∀ path ∈ q.opened store catalog, ∃ a ∈ q.atoms,
      IsIdentifier a.relation ∧ (∃ r, catalog.relation? a.relation = some r) ∧
        Path.IsChild (root.join settings.dataDir) path
          (a.relation ++ "." ++ settings.dataExtension)) ∧
    q.opened store catalog <+: q.atoms.map (fun a => catalog.relationPath a.relation) ∧
    (∀ a ∈ q.atoms, ∀ b ∈ q.atoms,
      Path.Meets store (catalog.relationPath a.relation) (catalog.relationPath b.relation) →
        a.relation = b.relation) ∧
    Opening.Records (q.planOpening store catalog) (q.plan store catalog)
      (q.opened store catalog) ∧
    (∀ other : Storage, (∀ path ∈ q.opened store catalog,
      other.openReader path = store.openReader path) →
        q.plan other catalog = q.plan store catalog) ∧
    ∀ m, q.plan store catalog = .ok m → ∀ scan ∈ m.plan.scans, scan.2 ∈ q.opened store catalog := by
  have hidentifier : ∀ a ∈ q.atoms, IsIdentifier a.relation := by
    intro a ha
    have hatom : a.WellFormed := (wellFormed_of_read hread).body _ (mem_atoms.mp ha)
    exact hatom.relation
  have hchild : ∀ a ∈ q.atoms, Path.IsChild (root.join settings.dataDir)
      (catalog.relationPath a.relation) (a.relation ++ "." ++ settings.dataExtension) :=
    fun a ha => isChild_relationPath hsettings hcatalog (hidentifier a ha)
  refine ⟨fun path hpath => ?_, isPrefix_opened store catalog q, fun a ha b hb hmeets => ?_,
    records_opened store catalog q, fun other => plan_congr, fun m hm scan hscan => ?_⟩
  · obtain ⟨a, ha, hdeclared, rfl⟩ := exists_of_mem_opened hpath
    exact ⟨a, ha, hidentifier a ha, hdeclared, hchild a ha⟩
  · exact eq_of_fileName_eq ((hchild a ha).eq_of_meets (hchild b hb) hmeets)
  · obtain ⟨a, ha, hpath⟩ := (fresh_of_plan hm).2 scan hscan
    rw [opened_of_plan hm, hpath]
    exact List.mem_map_of_mem ha

/-! ## A schema with paths for names -/

/-- The text of settings with a slash at the end of the data directory. -/
def tableConfig : String :=
  "\x7b\"data_dir\": \"data/\", \"data_extension\": \"tbl\"\x7d"

/-- A schema in which relations are named like files elsewhere. -/
def hostileSchema : String :=
  "R int\n../R int\n/etc/passwd string\nS int"

/-- A storage with the settings, and a database with the schema and two tables. -/
def hostileStore : Storage :=
  ⟨[(["config"], .file 0), (["db"], .directory), (["db", "schema.txt"], .file 1),
    (["db", "data"], .directory), (["db", "data", "R.tbl"], .file 2),
    (["db", "data", "S.tbl"], .file 3)],
    #[tableConfig.toUTF8, hostileSchema.toUTF8, "7".toUTF8, "8".toUTF8], []⟩

/-- The catalog of the database. -/
def hostileCatalog : Catalog :=
  ⟨"db", ⟨"schema.txt", "data/", "tbl"⟩, [⟨"R", [.int]⟩, ⟨"../R", [.int]⟩,
    ⟨"/etc/passwd", [.string]⟩, ⟨"S", [.int]⟩]⟩

theorem load_tableConfig :
    Settings.load hostileStore (some "config") = .ok ⟨⟨"schema.txt", "data/", "tbl"⟩, "WARN"⟩ := by
  have htext : hostileStore.readText "config" = .ok tableConfig :=
    Storage.readText_of_find (by rfl) (by rfl)
  unfold Settings.load
  dsimp only
  rw [htext]
  decide +kernel

/-- A query that names a table twice. -/
def hostileQuery : Query :=
  ⟨⟨"Q", [⟨"x"⟩], none⟩, [.atom ⟨"R", [.var ⟨"x"⟩]⟩, .atom ⟨"S", [.var ⟨"x"⟩]⟩,
    .atom ⟨"R", [.var ⟨"y"⟩]⟩]⟩

/-- The schema declares a file outside the database, and a query opens its tables all the same. -/
theorem plan_confined_hostile :
    hostileCatalog.relationPath "/etc/passwd" = "/etc/passwd.tbl" ∧
    read "Q(x) :- R(x), S(x), R(y)" = .ok hostileQuery ∧
    hostileQuery.opened hostileStore hostileCatalog =
      ["db/data/R.tbl", "db/data/S.tbl", "db/data/R.tbl"] ∧
    ∀ path ∈ hostileQuery.opened hostileStore hostileCatalog, ∃ a ∈ hostileQuery.atoms,
      IsIdentifier a.relation ∧ (∃ r, hostileCatalog.relation? a.relation = some r) ∧
        Path.IsChild (Path.join "db" "data/") path (a.relation ++ "." ++ "tbl") := by
  have hread : read "Q(x) :- R(x), S(x), R(y)" = .ok hostileQuery := by decide +kernel
  have hcatalog : Catalog.load hostileStore "db" ⟨"schema.txt", "data/", "tbl"⟩ =
      .ok hostileCatalog := Catalog.load_of_find hostileSchema rfl rfl rfl
  obtain ⟨hinside, -⟩ := plan_confined load_tableConfig hcatalog hread hostileStore
  exact ⟨by decide +kernel, hread, by decide +kernel, hinside⟩

end Query

end Conjunct
