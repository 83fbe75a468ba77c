import Conjunct.Relation
import Conjunct.Source
import Conjunct.Storage.Reader

/-!
# Scans

The tuples of a relation, read line by line from its file. Blank lines count as rows but hold no
tuple. A line that cannot be decoded is passed by all the same: the error is reported once, and
the next pull goes on behind it. Rows are counted by the lines that are text.
-/

namespace Conjunct

/-- A state of a scan: the open file and the number of rows read from it. -/
structure ScanState where
  reader : Storage.Reader
  row : Nat

namespace Source

/-- Look for the next tuple in the lines that are left. -/
def scanLines (relation : Relation) (path : Path) (row : Nat) :
    List Line → Pull × Nat × List Line
  | [] => (.exhausted, row, [])
  | .undecodable :: rest =>
    (.failed (.relationUnavailable path StorageError.notUtf8.message), row, rest)
  | .text line :: rest =>
    if line.all Text.isBlank then
      scanLines relation path (row + 1) rest
    else
      match relation.decode (row + 1) line with
      | .ok t => (.tuple t, row + 1, rest)
      | .error e => (.failed e, row + 1, rest)

theorem length_scanLines {relation : Relation} {path : Path} {row row' : Nat}
    {lines rest : List Line} {t : Tuple}
    (h : scanLines relation path row lines = (.tuple t, row', rest)) :
    rest.length < lines.length := by
  fun_induction scanLines relation path row lines with
  | case1 => simp at h
  | case2 => simp at h
  | case3 row line others _ ih => exact Nat.lt_succ_of_lt (ih h)
  | case4 row line others =>
    cases h
    simp
  | case5 => simp at h

/-- The number of lines that are left to a reader. -/
def unreadLines (store : Storage) (reader : Storage.Reader) : Nat :=
  match reader.pending store with
  | .ok lines => lines.length
  | .error _ => 0

/-- Open the file of a relation. -/
def openScan (store : Storage) (path : Path) : Except EvalError ScanState :=
  match store.openReader path with
  | .ok reader => .ok ⟨reader, 0⟩
  | .error e => .error (.relationUnavailable path e.message)

/-- The tuples in the file of a relation. Resetting opens the file again; if that fails, the old
state stays. -/
def scan (store : Storage) (relation : Relation) (path : Path) : Source ScanState where
  pull s :=
    match s.reader.pending store with
    | .error e => (.failed (.relationUnavailable path e.message), s)
    | .ok lines =>
      let (answer, row, rest) := scanLines relation path s.row lines
      (answer, ⟨.lines rest, row⟩)
  reset s :=
    match openScan store path with
    | .ok s' => (.ok (), s')
    | .error e => (.error e, s)
  size s := unreadLines store s.reader
  capacity :=
    match openScan store path with
    | .ok s => unreadLines store s.reader
    | .error _ => 0
  size_pull := by
    intro s t s' h
    split at h
    · cases h
    · next lines hlines =>
      obtain ⟨hanswer, rfl⟩ := Prod.mk.inj h
      have hlen := length_scanLines (Prod.ext hanswer rfl)
      have hsize : unreadLines store s.reader = lines.length := by
        unfold unreadLines
        rw [hlines]
      rw [hsize]
      exact hlen
  size_reset := by
    intro s s' h
    split at h
    · next hopen =>
      cases h
      exact Nat.le_refl _
    · cases h

end Source

end Conjunct
