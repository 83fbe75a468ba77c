import Conjunct.Proofs.Except
import Conjunct.Storage.Output
import Conjunct.Storage.Reader

/-!
# Created files

A path under which a file has been created leads to this file from then on, whatever is written to
it. For existing names stay where they are when a storage is *extended*: following a path that led
somewhere leads there again (`Storage.Extends.find`).

**Theorem (`Storage.content_of_create`).** A path under which a file was created is opened as this
file, and the file contains what has been written to it since.

Files are written by number, and what is written under a number that has no content is lost. No such
number is in the tree of a *backed* storage (`Storage.Backed`). Storages begin like that
(`Storage.backed_withWorking`), and stay so when directories are made and files are written
(`Storage.Backed.addDirectory`, `Storage.Backed.addFile`). In such a storage a text that is written
to a file is read from it again (`Storage.readText_writeText`).
-/

namespace Conjunct

/-! ## The last name of a path -/

theorem getLast?_splitOn {α : Type} [DecidableEq α] {as : List α} {a : α} (hne : as ≠ [])
    (h : as.getLast? ≠ some a) : (as.splitOn a).getLast? ≠ some [] := by
  induction as with
  | nil => exact absurd rfl hne
  | cons c as ih =>
    rw [List.splitOn_cons_eq_if_modifyHead]
    cases as with
    | nil =>
      have hc : c ≠ a := by simpa using h
      simp [hc]
    | cons d ds =>
      have htail := ih (by simp) (by simpa using h)
      obtain ⟨first, rest, hsplit⟩ := List.exists_cons_of_ne_nil (List.splitOn_ne_nil a (d :: ds))
      rw [hsplit] at htail ⊢
      split
      · rwa [List.getLast?_cons_cons]
      · cases rest with
        | nil => simp
        | cons next rest => rwa [List.modifyHead_cons, List.getLast?_cons_cons] at *

theorem Path.getLast?_names {path : Path} (hne : path ≠ "") (h : path.endsInSlash = false) :
    path.names.getLast? ≠ some "" := by
  have hpieces := getLast?_splitOn (by simpa using hne) (of_decide_eq_false h)
  intro hname
  rw [Path.names, List.getLast?_map] at hname
  obtain ⟨piece, hpiece, hempty⟩ := Option.map_eq_some_iff.mp hname
  have hnil : piece = [] := by simpa using hempty
  exact hpieces (hnil ▸ hpiece)

/-- Without a slash at the end of a path there is no empty name to be left out. -/
theorem Path.dropWhile_reverse_names {path : Path} (hne : path ≠ "")
    (h : path.endsInSlash = false) :
    path.names.reverse.dropWhile (· = "") = path.names.reverse := by
  have hlast := Path.getLast?_names hne h
  rw [← List.head?_reverse] at hlast
  cases hnames : path.names.reverse with
  | nil => rfl
  | cons name names =>
    rw [hnames, List.head?_cons] at hlast
    exact List.dropWhile_cons_of_neg (by simpa using hlast)

namespace Storage

variable {s s' : Storage} {place : Place} {node : Node} {path : Path} {number : Nat}
  {bytes : ByteArray} {e : Entry}

/-! ## Nodes and paths -/

theorem node?_of_ne_nil (h : place ≠ []) : s.node? place = s.nodes.lookup place :=
  if_neg h

/-- The root is no file. -/
theorem lookup_of_node? (h : s.node? place = some (.file number)) :
    place ≠ [] ∧ s.nodes.lookup place = some (.file number) := by
  by_cases hnil : place = []
  · rw [node?, if_pos hnil] at h
    cases h
  · exact ⟨hnil, (node?_of_ne_nil hnil).symm.trans h⟩

theorem node?_putFile_self (h : place ≠ []) :
    (s.putFile place bytes).node? place = some (.file s.contents.size) := by
  rw [node?_of_ne_nil h, putFile, List.lookup_cons_self]

theorem lookup_filter_ne {nodes : List (Place × Node)} {place other : Place}
    (h : other ≠ place) :
    (nodes.filter fun entry => entry.1 ≠ place).lookup other = nodes.lookup other := by
  induction nodes with
  | nil => rfl
  | cons entry nodes ih =>
    obtain ⟨here, node⟩ := entry
    by_cases hhere : here = place
    · subst hhere
      have hbeq : (other == here) = false := beq_eq_false_iff_ne.mpr h
      simpa [List.lookup_cons, hbeq] using ih
    · rw [List.filter_cons_of_pos (by simpa using hhere), List.lookup_cons, List.lookup_cons, ih]

theorem node?_putFile_of_ne {other : Place} (h : other ≠ place) :
    (s.putFile place bytes).node? other = s.node? other := by
  by_cases hnil : other = []
  · rw [node?, node?, if_pos hnil, if_pos hnil]
  · have hbeq : (other == place) = false := beq_eq_false_iff_ne.mpr h
    rw [node?_of_ne_nil hnil, node?_of_ne_nil hnil, putFile, List.lookup_cons, hbeq]
    exact lookup_filter_ne h

theorem find_eq_ok_iff : s.find path = .ok (place, node) ↔
    checkPath path = .ok () ∧ s.walk (s.start path) path.names = .ok place ∧
      s.node? place = some node := by
  constructor
  · intro h
    obtain ⟨_, hcheck, h⟩ := exists_of_bind_eq_ok h
    obtain ⟨there, hwalk, h⟩ := exists_of_bind_eq_ok h
    split at h
    · next hnode =>
      cases h
      exact ⟨hcheck, hwalk, hnode⟩
    · cases h
  · rintro ⟨hcheck, hwalk, hnode⟩
    simp only [find, hcheck, hwalk, hnode, bind, Except.bind, pure, Except.pure]

theorem walk_append (s : Storage) (place : Place) (names names' : List String) :
    s.walk place (names ++ names') =
      (s.walk place names).bind fun there => s.walk there names' := by
  induction names generalizing place with
  | nil => rfl
  | cons name names ih =>
    rw [List.cons_append, walk, walk]
    split
    · cases s.enter place name with
      | error e => rfl
      | ok next => exact ih next
    · rfl

/-! ## Extensions -/

/-- All that a storage holds is in the same places of another one. -/
structure Extends (s s' : Storage) : Prop where
  working : s'.working = s.working
  node : ∀ place node, s.node? place = some node → s'.node? place = some node

theorem extends_setContent : s.Extends (s.setContent number bytes) :=
  ⟨rfl, fun _ _ h => h⟩

theorem extends_putFile (h : s.node? place = none) : s.Extends (s.putFile place bytes) := by
  refine ⟨rfl, fun other node hnode => ?_⟩
  have hne : other ≠ place := by
    rintro rfl
    cases h.symm.trans hnode
  rwa [node?_putFile_of_ne hne]

namespace Extends

theorem enter {name : String} {next : Place} (hs : s.Extends s')
    (h : s.enter place name = .ok next) : s'.enter place name = .ok next := by
  unfold Storage.enter at h ⊢
  by_cases hstay : name = "" ∨ name = "."
  · rwa [if_pos hstay] at h ⊢
  · by_cases hup : name = ".."
    · rwa [if_neg hstay, if_pos hup] at h ⊢
    · by_cases hlong : nameLimit < name.utf8ByteSize
      · rw [if_neg hstay, if_neg hup, if_pos hlong] at h
        cases h
      · rw [if_neg hstay, if_neg hup, if_neg hlong] at h ⊢
        split at h
        · next hsome =>
          obtain ⟨node, hnode⟩ := Option.isSome_iff_exists.mp hsome
          rwa [if_pos (Option.isSome_of_eq_some (hs.node _ _ hnode))]
        · cases h

theorem walk {names : List String} {next : Place} (hs : s.Extends s')
    (h : s.walk place names = .ok next) : s'.walk place names = .ok next := by
  induction names generalizing place with
  | nil => exact h
  | cons name names ih =>
    rw [Storage.walk] at h ⊢
    split at h
    · next hnode =>
      rw [if_pos (hs.node _ _ hnode)]
      cases henter : s.enter place name with
      | error e => simp [henter, Except.bind] at h
      | ok there =>
        rw [henter] at h
        rw [hs.enter henter]
        exact ih h
    · cases h

theorem start (hs : s.Extends s') (path : Path) : s'.start path = s.start path := by
  rw [Storage.start, Storage.start, hs.working]

/-- What is found in a storage is found in its extensions. -/
theorem find (hs : s.Extends s') (h : s.find path = .ok (place, node)) :
    s'.find path = .ok (place, node) := by
  obtain ⟨hcheck, hwalk, hnode⟩ := find_eq_ok_iff.mp h
  exact find_eq_ok_iff.mpr ⟨hcheck, hs.start path ▸ hs.walk hwalk, hs.node _ _ hnode⟩

end Extends

/-! ## Creating -/

/-- The names that lead to an entry, and the last one of them. -/
theorem of_entry (h : s.entry path = .ok e) (hslash : path.endsInSlash = false) :
    checkPath path = .ok () ∧ e.name ≠ "" ∧ s.node? e.directory = some .directory ∧
      ∃ before, path.names = before ++ [e.name] ∧
        s.walk (s.start path) before = .ok e.directory := by
  obtain ⟨_, hcheck, h⟩ := exists_of_bind_eq_ok h
  have hne : path ≠ "" := by
    rintro rfl
    simp [checkPath] at hcheck
  rw [Path.dropWhile_reverse_names hne hslash] at h
  split at h
  · cases h
  · next last before hreverse =>
    have hpath : path.names = before.reverse ++ [last] := by
      rw [← List.reverse_reverse path.names, hreverse, List.reverse_cons]
    obtain ⟨directory, hwalk, h⟩ := exists_of_bind_eq_ok h
    split at h
    · next hnode =>
      cases h
      refine ⟨hcheck, ?_, hnode, before.reverse, hpath, hwalk⟩
      rintro rfl
      exact Path.getLast?_names hne hslash (by rw [hpath, List.getLast?_concat])
    · cases h

/-- What is opened for writing is a device, or the file that was at the entry of the path, without
its content, or a new file. -/
theorem of_create {target : Target} (h : s.create path = .ok (target, s')) :
    path.endsInSlash = false ∧ ∃ e, s.entry path = .ok e ∧ e.isDots = false ∧
      ¬ nameLimit < e.name.utf8ByteSize ∧
      match target with
      | .device d => s.node? e.place = some (.device d) ∧ s' = s
      | .file number =>
        s.node? e.place = some (.file number) ∧ s' = s.setContent number .empty ∨
          s.node? e.place = none ∧ number = s.contents.size ∧ s' = s.putFile e.place .empty := by
  obtain ⟨e, hentry, h⟩ := exists_of_bind_eq_ok h
  split at h
  · cases h
  · next hfile =>
    rw [not_or, Bool.not_eq_true, Bool.not_eq_true] at hfile
    split at h
    · cases h
    · next hlimit =>
      refine ⟨hfile.1, e, hentry, hfile.2, hlimit, ?_⟩
      split at h
      · cases h
      · next hnode =>
        cases h
        exact ⟨hnode, rfl⟩
      · next hnode =>
        cases h
        exact .inl ⟨hnode, rfl⟩
      · next hnode =>
        cases h
        exact .inr ⟨hnode, rfl, rfl⟩

theorem extends_of_create (h : s.create path = .ok (.file number, s')) : s.Extends s' := by
  obtain ⟨-, e, -, -, -, ⟨-, rfl⟩ | ⟨hnode, -, rfl⟩⟩ := of_create h
  · exact extends_setContent
  · exact extends_putFile hnode

/-- **A created file is found under its path.** -/
theorem find_of_create (h : s.create path = .ok (.file number, s')) :
    ∃ place, s'.find path = .ok (place, .file number) := by
  have hextends := extends_of_create h
  obtain ⟨hslash, e, hentry, hdots, hlimit, hcreated⟩ := of_create h
  obtain ⟨hcheck, hname, hdirectory, before, hnames, hwalk⟩ := of_entry hentry hslash
  have hplace : e.place ≠ [] := by simp [Entry.place]
  have hnode : s'.node? e.place = some (.file number) := by
    rcases hcreated with ⟨hnode, rfl⟩ | ⟨-, rfl, rfl⟩
    · exact hnode
    · exact node?_putFile_self hplace
  have hdotless : e.name ≠ "." ∧ e.name ≠ ".." := by
    simpa [Entry.isDots] using hdots
  have henter : s'.enter e.directory e.name = .ok e.place := by
    have hsome : (s'.node? (e.directory ++ [e.name])).isSome = true :=
      Option.isSome_of_eq_some hnode
    rw [enter, if_neg (by simp [hname, hdotless.1]), if_neg hdotless.2, if_neg hlimit,
      if_pos hsome]
    rfl
  have hlast : s'.walk e.directory [e.name] = .ok e.place := by
    rw [walk, if_pos (hextends.node _ _ hdirectory), henter]
    rfl
  have hwhole : s'.walk (s'.start path) path.names = .ok e.place := by
    rw [hnames, walk_append, hextends.start, hextends.walk hwalk]
    exact hlast
  exact ⟨e.place, find_eq_ok_iff.mpr ⟨hcheck, hwhole, hnode⟩⟩

theorem openReader_of_find (h : s.find path = .ok (place, .file number)) :
    s.openReader path = .ok (.unread number) := by
  simp only [openReader, h, bind, Except.bind, pure, Except.pure]

/-! ## Contents -/

/-- Every file in the tree has its content. -/
def Backed (s : Storage) : Prop :=
  ∀ place number, s.node? place = some (.file number) → number < s.contents.size

theorem content_setContent (h : number < s.contents.size) :
    (s.setContent number bytes).content number = bytes := by
  simp [content, setContent, h]

/-- It is enough to go through the files that are listed. -/
theorem backed_of_listed
    (h : ∀ number ∈ s.nodes.filterMap (·.2.number?), number < s.contents.size) : s.Backed := by
  intro place number hnode
  obtain ⟨-, hlookup⟩ := lookup_of_node? hnode
  obtain ⟨before, after, hnodes, -⟩ := List.lookup_eq_some_iff.mp hlookup
  refine h number (List.mem_filterMap.mpr ⟨(place, .file number), ?_, rfl⟩)
  rw [hnodes]
  exact List.mem_append_right _ List.mem_cons_self

/-- A storage begins with devices and directories alone. -/
theorem backed_withWorking (working : Place) : (withWorking working).Backed :=
  backed_of_listed (by simp [withWorking, Node.number?])

theorem Backed.setContent (h : s.Backed) : (s.setContent number bytes).Backed := by
  intro place other hnode
  have hlt := h place other hnode
  simpa [Storage.setContent] using hlt

theorem Backed.putFile (h : s.Backed) : (s.putFile place bytes).Backed := by
  intro other number hnode
  have hsize : (s.putFile place bytes).contents.size = s.contents.size + 1 := by
    simp [Storage.putFile]
  rw [hsize]
  by_cases hother : other = place
  · subst hother
    rw [node?_putFile_self (lookup_of_node? hnode).1] at hnode
    cases hnode
    omega
  · rw [node?_putFile_of_ne hother] at hnode
    have hlt := h other number hnode
    omega

theorem Backed.create {target : Target} (h : s.Backed)
    (hcreate : s.create path = .ok (target, s')) : s'.Backed := by
  obtain ⟨-, e, -, -, -, htarget⟩ := of_create hcreate
  cases target with
  | device d =>
    obtain ⟨-, rfl⟩ := htarget
    exact h
  | file number =>
    rcases htarget with ⟨-, rfl⟩ | ⟨-, -, rfl⟩
    · exact h.setContent
    · exact h.putFile

theorem Backed.close {o : Output} (h : s.Backed) : (o.close s).Backed := by
  unfold Output.close
  split
  · exact h.setContent
  · exact h

theorem Backed.putDirectory (h : s.Backed) : (s.putDirectory place).Backed := by
  intro other number hnode
  obtain ⟨hnil, hlookup⟩ := lookup_of_node? hnode
  rw [Storage.putDirectory, List.lookup_cons] at hlookup
  split at hlookup
  · cases hlookup
  · exact h other number ((node?_of_ne_nil hnil).trans hlookup)

theorem Backed.makeDirectories {names : List String} (h : s.Backed)
    (hmake : s.makeDirectories place names = .ok s') : s'.Backed := by
  fun_induction s.makeDirectories place names with
  | case1 s place =>
    cases hmake
    exact h
  | case2 s place name names next henter hnode ih => exact ih h hmake
  | case3 => cases hmake
  | case4 s place name names henter ih => exact ih h.putDirectory hmake
  | case5 => cases hmake

theorem Backed.writeBytes (h : s.Backed) (hwrite : s.writeBytes path bytes = .ok s') :
    s'.Backed := by
  obtain ⟨⟨target, created⟩, hcreate, hwrite⟩ := exists_of_bind_eq_ok hwrite
  have hcreated := h.create hcreate
  cases target with
  | file number =>
    cases hwrite
    exact hcreated.setContent
  | device d =>
    cases d with
    | null =>
      cases hwrite
      exact hcreated
    | full =>
      dsimp only at hwrite
      split at hwrite
      · cases hwrite
        exact hcreated
      · cases hwrite

theorem Backed.addDirectory (h : s.Backed) (hadd : s.addDirectory path = .ok s') :
    s'.Backed := by
  obtain ⟨_, -, hmake⟩ := exists_of_bind_eq_ok hadd
  exact h.makeDirectories hmake

theorem Backed.addFile (h : s.Backed) (hadd : s.addFile path bytes = .ok s') : s'.Backed := by
  obtain ⟨made, hparents, hwrite⟩ := exists_of_bind_eq_ok hadd
  obtain ⟨_, -, hmake⟩ := exists_of_bind_eq_ok hparents
  exact (h.makeDirectories hmake).writeBytes hwrite

/-! ## Written files -/

/-- **A file contains what has been written to it** since it was created. -/
theorem content_of_create {text : String} (h : s.Backed)
    (hcreate : s.create path = .ok (.file number, s')) :
    ((⟨.file number, text⟩ : Output).close s').openReader path = .ok (.unread number) ∧
      ((⟨.file number, text⟩ : Output).close s').content number = text.toUTF8 := by
  obtain ⟨place, hfind⟩ := find_of_create hcreate
  have hlt : number < s'.contents.size := by
    obtain ⟨-, e, -, -, -, ⟨hnode, rfl⟩ | ⟨-, rfl, rfl⟩⟩ := of_create hcreate
    · exact h.setContent _ _ hnode
    · simp [putFile]
  exact ⟨openReader_of_find (extends_setContent.find hfind), content_setContent hlt⟩

theorem readText_of_create {text : String} (h : s.Backed)
    (hcreate : s.create path = .ok (.file number, s')) :
    ((⟨.file number, text⟩ : Output).close s').readText path = .ok text := by
  obtain ⟨place, hfind⟩ := find_of_create hcreate
  exact readText_of_find (extends_setContent.find hfind) (content_of_create h hcreate).2

/-- A text that is written to a file is read from it. -/
theorem readText_writeText (h : s.Backed) (hcreate : s.create path = .ok (.file number, s'))
    (text : String) :
    ∃ written, s.writeText path text = .ok written ∧ written.readText path = .ok text := by
  refine ⟨_, ?_, readText_of_create h hcreate⟩
  simp only [writeText, writeBytes, hcreate, bind, Except.bind, pure, Except.pure]
  rfl

end Storage

end Conjunct
