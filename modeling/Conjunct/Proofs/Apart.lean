import Conjunct.Proofs.Binding
import Conjunct.Proofs.Files
import Conjunct.Proofs.Refinement

/-!
# Files apart

Creating a file and writing to it changes the content of this one file. Any path that leads to
another file leads there afterwards too, and what is read there is the same (`Storage.Keeps`).

**Theorem (`Query.collect_of_keeps`).** A planned query emits the same tuples, and ends with the
same error, whether a file apart from its relations is written or not.

What a machine emits is a matter of the lines in the files that its plan scans
(`Machine.Fresh.collect_congr`), since a new machine replays what its plan denotes. And the plan of
a query scans nothing but the relations of its atoms (`Query.fresh_of_plan`).
-/

namespace Conjunct

namespace Storage

variable {s s' s'' : Storage} {path path' : Path} {place : Place} {number other : Nat}
  {bytes : ByteArray}

/-- Two paths lead to one file. -/
def SameFile (s : Storage) (path path' : Path) : Prop :=
  ∃ place place' number,
    s.find path = .ok (place, .file number) ∧ s.find path' = .ok (place', .file number)

/-! ## Contents -/

theorem content_setContent_of_ne (h : other ≠ number) :
    (s.setContent number bytes).content other = s.content other := by
  simp [content, setContent, Array.getElem?_setIfInBounds_ne h.symm]

theorem content_putFile_of_lt (h : other < s.contents.size) :
    (s.putFile place bytes).content other = s.content other := by
  simp [content, putFile, Array.getElem?_push, Nat.ne_of_lt h]

/-- An extension in which all files but one have the contents that they had. -/
structure Keeps (s s' : Storage) (but : Nat) : Prop extends s.Extends s' where
  content : ∀ other, other < s.contents.size → other ≠ but → s'.content other = s.content other

/-- Opening a file for writing changes no other file. -/
theorem keeps_of_create (h : s.create path = .ok (.file number, s')) : s.Keeps s' number := by
  refine ⟨extends_of_create h, fun other hlt hne => ?_⟩
  obtain ⟨-, e, -, -, -, ⟨-, rfl⟩ | ⟨-, -, rfl⟩⟩ := of_create h
  · exact content_setContent_of_ne hne
  · exact content_putFile_of_lt hlt

theorem Keeps.setContent (h : s.Keeps s' number) : s.Keeps (s'.setContent number bytes) number where
  working := h.working
  node := h.node
  content other hlt hne := (content_setContent_of_ne hne).trans (h.content other hlt hne)

/-! ## Reading -/

theorem openReader_congr (h : s'.find path = s.find path) :
    s'.openReader path = s.openReader path := by
  rw [openReader, openReader, h]

theorem exists_find_of_openReader {reader : Reader} (h : s.openReader path = .ok reader) :
    ∃ found, s.find path = .ok found := by
  obtain ⟨found, hfind, -⟩ := exists_of_bind_eq_ok h
  exact ⟨found, hfind⟩

theorem find_of_openReader (h : s.openReader path = .ok (.unread number)) :
    ∃ place, s.find path = .ok (place, .file number) := by
  obtain ⟨⟨place, node⟩, hfind, hnode⟩ := exists_of_bind_eq_ok h
  cases node with
  | file other =>
    cases hnode
    exact ⟨place, hfind⟩
  | directory => cases hnode
  | device d => cases hnode

theorem Keeps.openReader (h : s.Keeps s' number)
    (hopen : ∃ reader, s.openReader path = .ok reader) :
    s'.openReader path = s.openReader path := by
  obtain ⟨reader, hreader⟩ := hopen
  obtain ⟨⟨place, node⟩, hfind⟩ := exists_find_of_openReader hreader
  exact openReader_congr ((h.find hfind).trans hfind.symm)

/-- The lines of another file are the same. -/
theorem Keeps.linesAt (h : s.Keeps s' number) (hbacked : s.Backed)
    (hopen : ∃ reader, s.openReader path = .ok reader)
    (hapart : ∀ place, s.find path ≠ .ok (place, .file number)) :
    s'.linesAt path = s.linesAt path := by
  rw [Storage.linesAt, Storage.linesAt, h.openReader hopen]
  obtain ⟨reader, hreader⟩ := hopen
  rw [hreader]
  cases reader with
  | directory => rfl
  | lines rest => rfl
  | unread other =>
    obtain ⟨place, hfind⟩ := find_of_openReader hreader
    have hlt : other < s.contents.size := hbacked place other (find_eq_ok_iff.mp hfind).2.2
    have hne : other ≠ number := fun heq => hapart place (heq ▸ hfind)
    show Except.ok (Line.ofContent (s'.content other)) = .ok (Line.ofContent (s.content other))
    rw [h.content other hlt hne]

/-- A file that is not the one under a path is not the one that is opened for writing there. -/
theorem find_ne_of_create (hbacked : s.Backed) (hcreate : s.create path = .ok (.file number, s'))
    (hapart : ¬ s.SameFile path path') : ∀ place, s.find path' ≠ .ok (place, .file number) := by
  intro place hfind
  obtain ⟨-, e, -, -, -, ⟨-, rfl⟩ | ⟨-, rfl, -⟩⟩ := of_create hcreate
  · obtain ⟨place', hfind'⟩ := find_of_create hcreate
    have hback : (s.setContent number .empty).Extends s := ⟨rfl, fun _ _ h => h⟩
    exact hapart ⟨place', place, number, hback.find hfind', hfind⟩
  · exact Nat.lt_irrefl _ (hbacked place _ (find_eq_ok_iff.mp hfind).2.2)

end Storage

/-! ## Machines -/

section Machines

variable {store store' : Storage}

/-- What a plan denotes is a matter of the lines that it scans. -/
theorem Plan.meaning_congr {p : Plan}
    (h : ∀ scan ∈ p.scans, store'.linesAt scan.2 = store.linesAt scan.2) :
    p.meaning store' = p.meaning store := by
  induction p with
  | scan relation path atom => rw [meaning, meaning, h _ (List.mem_singleton_self _)]
  | rows atom tuples => rfl
  | select child predicates ih => rw [meaning, meaning, ih h]
  | join outer inner conditions ihouter ihinner =>
    rw [meaning, meaning, ihouter fun scan hscan => h scan (List.mem_append_left _ hscan),
      ihinner fun scan hscan => h scan (List.mem_append_right _ hscan)]
  | project child targets ih => rw [meaning, meaning, ih h]
  | sum child spec ih => rw [meaning, meaning, ih h]

namespace Machine.Fresh

variable {m : Machine}

/-- Machines are put together the same way over all storages in which their scans open the same
files. -/
theorem of_openReader (hm : m.Fresh store)
    (h : ∀ scan ∈ m.plan.scans, store'.openReader scan.2 = store.openReader scan.2) :
    m.Fresh store' := by
  induction hm with
  | @scan relation path atom m hwidth hscan =>
    obtain ⟨s, hopen, rfl⟩ := exists_of_map_eq_ok hscan
    have hsame :
        Machine.scan store' relation path atom = Machine.scan store relation path atom := by
      rw [Machine.scan, Source.openScan, h _ (List.mem_singleton_self _)]
      rfl
    exact .scan hwidth (hsame.trans hscan)
  | rows hwidth => exact .rows hwidth
  | select hchild hm ih =>
    obtain ⟨ps, hps, rfl⟩ := exists_of_map_eq_ok hm
    exact .select (ih h) hm
  | join houter hinner conditions ihouter ihinner =>
    exact .join (ihouter fun scan hscan => h scan (List.mem_append_left _ hscan))
      (ihinner fun scan hscan => h scan (List.mem_append_right _ hscan)) conditions
  | project hchild hm ih =>
    obtain ⟨ps, hps, rfl⟩ := exists_of_map_eq_ok hm
    exact .project (ih h) hm
  | sum hchild hm ih =>
    obtain ⟨spec, hspec, rfl⟩ := exists_of_map_eq_ok hm
    exact .sum (ih h) hm

/-- A new machine emits the same over all storages in which its scans open the same files and find
the same lines there. -/
theorem collect_congr (hm : m.Fresh store)
    (hopen : ∀ scan ∈ m.plan.scans, store'.openReader scan.2 = store.openReader scan.2)
    (hlines : ∀ scan ∈ m.plan.scans, store'.linesAt scan.2 = store.linesAt scan.2) :
    (m.collect store').1 = (m.collect store).1 := by
  rw [collect_eq_of_replays hm.replays, collect_eq_of_replays (hm.of_openReader hopen).replays,
    Plan.meaning_congr hlines]

end Machine.Fresh

end Machines

/-! ## Planned queries -/

namespace Query

variable {store store' : Storage} {catalog : Catalog} {q : Query} {root : Machine} {number : Nat}

/-- A plan scans the relations of a query, each under its own path. -/
def Scans (catalog : Catalog) (q : Query) (p : Plan) : Prop :=
  ∀ scan ∈ p.scans, ∃ a ∈ q.atoms, scan.2 = catalog.relationPath a.relation

/-- **The machine of a query has just been put together**, from scans of the relations in its
body. -/
theorem fresh_of_plan (hplan : q.plan store catalog = .ok root) :
    root.Fresh store ∧ q.Scans catalog root.plan := by
  have hfault := fault?_of_plan hplan
  have hinherited : Inherited store catalog q fun _ m =>
      m.Fresh store ∧ q.Scans catalog m.plan := by
    refine .of_operators hfault ?_ ?_ ?_ ?_
    · intro a r m ha hr harity hm
      refine ⟨.scan harity hm, fun scan hscan => ?_⟩
      obtain ⟨s, -, rfl⟩ := exists_of_map_eq_ok hm
      cases List.mem_singleton.mp hscan
      exact ⟨a, ha, rfl⟩
    · rintro atoms child cs m ⟨hfresh, hscans⟩ - hm
      refine ⟨.select hfresh hm, ?_⟩
      obtain ⟨ps, -, rfl⟩ := exists_of_map_eq_ok hm
      exact hscans
    · rintro atoms child targets m ⟨hfresh, hscans⟩ hm
      refine ⟨.project hfresh hm, ?_⟩
      obtain ⟨ps, -, rfl⟩ := exists_of_map_eq_ok hm
      exact hscans
    · rintro atoms a outer inner cs ⟨houter, houterScans⟩ ⟨hinner, hinnerScans⟩ - -
      refine ⟨.join houter hinner cs, fun scan hscan => ?_⟩
      exact (List.mem_append.mp hscan).elim (houterScans scan) (hinnerScans scan)
  obtain ⟨_, _, joined, -, -, hfinish, -, hfresh, hscans⟩ :=
    exists_chain hinherited hfault (opens_of_plan hplan)
  rcases of_finish (hfinish ▸ hplan) with ⟨s, -, hroot⟩ | ⟨-, hroot⟩
  · refine ⟨.sum hfresh hroot, ?_⟩
    obtain ⟨spec, -, rfl⟩ := exists_of_map_eq_ok hroot
    exact hscans
  · refine ⟨.project hfresh hroot, ?_⟩
    obtain ⟨ps, -, rfl⟩ := exists_of_map_eq_ok hroot
    exact hscans

/-- **A planned query does not notice writes to a file apart.** -/
theorem collect_of_keeps (hplan : q.plan store catalog = .ok root) (hbacked : store.Backed)
    (hkeeps : store.Keeps store' number)
    (hapart : ∀ a ∈ q.atoms, ∀ place,
      store.find (catalog.relationPath a.relation) ≠ .ok (place, .file number)) :
    (root.collect store').1 = (root.collect store).1 := by
  obtain ⟨hfresh, hscans⟩ := fresh_of_plan hplan
  refine hfresh.collect_congr (fun scan hscan => ?_) fun scan hscan => ?_
  all_goals
    obtain ⟨a, ha, hpath⟩ := hscans scan hscan
    have hopen : ∃ reader, store.openReader scan.2 = .ok reader :=
      hpath ▸ opens_of_plan hplan a ha
  · exact hkeeps.openReader hopen
  · exact hkeeps.linesAt hbacked hopen (hpath ▸ hapart a ha)

end Query

end Conjunct
