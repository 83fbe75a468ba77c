import Conjunct.Catalog
import Conjunct.Proofs.Except
import Conjunct.Proofs.Yield

/-!
# Tables

The rows that a database holds for a relation: one for each line of its file that is not blank. A
relation is *readable* if its file can be read and all these lines can be decoded. The scan of a
readable relation yields its rows and no error (`yields_of_decodes`).
-/

namespace Conjunct

namespace Relation

/-! ## Decoding lines -/

/-- The row that a line stands for, if it is not blank and can be decoded. -/
def row? (r : Relation) : Line → Option Tuple
  | .text line => if line.all Text.isBlank then none else (r.decode 0 line).toOption
  | .undecodable => none

/-- Every line is text, and can be decoded unless it is blank. -/
def Decodes (r : Relation) (lines : List Line) : Prop :=
  ∀ l ∈ lines, ∃ line, l = .text line ∧
    (line.all Text.isBlank = false → ∃ t, r.decode 0 line = .ok t)

theorem decodeFields_ok {fault fault' : String → EvalError} {n n' : Nat} {kinds : List Kind}
    {texts : List (List Char)} {t : Tuple} (h : decodeFields fault n kinds texts = .ok t) :
    decodeFields fault' n' kinds texts = .ok t := by
  fun_induction decodeFields fault n kinds texts generalizing n' t with
  | case1 => cases h
  | case2 n kind kinds text texts c hc ih =>
    cases hrest : decodeFields fault (n + 1) kinds texts with
    | error e => simp [hrest, Except.map] at h
    | ok rest =>
      rw [hrest] at h
      simp [decodeFields, hc, ih hrest, ← h]
  | case3 n kinds texts hnil =>
    rw [decodeFields.eq_2 _ _ _ _ hnil]
    exact h

/-- Which row a line is does not matter for its tuple. -/
theorem decode_ok {r : Relation} {row row' : Nat} {line : List Char} {t : Tuple}
    (h : r.decode row line = .ok t) : r.decode row' line = .ok t := by
  simp only [decode] at h ⊢
  split at h
  · next hlen => rw [if_pos hlen, decodeFields_ok h]
  · cases h

/-- The lines of a readable file are scanned without an error. -/
theorem yields_of_decodes {r : Relation} {lines : List Line} (h : r.Decodes lines) (path : Path)
    (row : Nat) : Yield.ofLines r path row lines = ⟨lines.filterMap r.row?, none⟩ := by
  induction lines generalizing row with
  | nil => rfl
  | cons l lines ih =>
    have htail := ih fun l' hl' => h l' (List.mem_cons_of_mem l hl')
    obtain ⟨line, rfl, hline⟩ := h l List.mem_cons_self
    by_cases hblank : line.all Text.isBlank = true
    · rw [Yield.ofLines, if_pos hblank, htail, List.filterMap_cons_none]
      simp [row?, hblank]
    · obtain ⟨t, ht⟩ := hline (by simpa using hblank)
      have hrow : r.row? (.text line) = some t := by simp [row?, hblank, ht, Except.toOption]
      rw [Yield.ofLines, if_neg hblank, decode_ok ht, htail, List.filterMap_cons_some hrow]
      rfl

theorem length_of_row? {r : Relation} {l : Line} {t : Tuple} (h : r.row? l = some t) :
    t.length = r.arity := by
  cases l with
  | undecodable => cases h
  | text line =>
    simp only [row?] at h
    split at h
    · cases h
    · cases hdecode : r.decode 0 line with
      | error e => simp [hdecode, Except.toOption] at h
      | ok u =>
        simp only [hdecode, Except.toOption, Option.some.injEq] at h
        have hkinds := congrArg List.length (kinds_of_decode hdecode)
        rw [List.length_map] at hkinds
        rw [← h, hkinds, arity]

end Relation

namespace Catalog

/-! ## The rows of a relation -/

variable (store : Storage) (catalog : Catalog)

/-- Whether the file of a relation can be opened. -/
def Opens (name : String) : Prop :=
  ∃ reader, store.openReader (catalog.relationPath name) = .ok reader

/-- The lines in the file of a relation. -/
def lines? (name : String) : Option (List Line) :=
  (store.openReader (catalog.relationPath name)).toOption.bind fun reader =>
    (reader.pending store).toOption

/-- A relation is declared, and every line in its file can be decoded unless it is blank. -/
def Readable (name : String) : Prop :=
  ∃ r lines, catalog.relation? name = some r ∧ catalog.lines? store name = some lines ∧
    r.Decodes lines

/-- The rows of a relation, in the order of its file. -/
def table (name : String) : List Tuple :=
  match catalog.relation? name, catalog.lines? store name with
  | some r, some lines => lines.filterMap r.row?
  | _, _ => []

variable {store catalog}

theorem opens_of_readable {name : String} (h : catalog.Readable store name) :
    catalog.Opens store name := by
  obtain ⟨r, lines, _, hlines, _⟩ := h
  obtain ⟨reader, hreader, _⟩ := Option.bind_eq_some_iff.mp hlines
  exact ⟨reader, toOption_eq_some hreader⟩

theorem length_of_mem_table {name : String} {r : Relation} {t : Tuple}
    (hr : catalog.relation? name = some r) (ht : t ∈ catalog.table store name) :
    t.length = r.arity := by
  unfold table at ht
  rw [hr] at ht
  split at ht
  · next r' lines hr' _ =>
    cases hr'
    obtain ⟨l, _, hl⟩ := List.mem_filterMap.mp ht
    exact Relation.length_of_row? hl
  · cases ht

/-- The scan of a readable relation yields its rows. -/
theorem replays_scan_of_readable {name : String} {r : Relation} {s : ScanState}
    (hr : catalog.relation? name = some r) (hread : catalog.Readable store name)
    (hopen : Source.openScan store (catalog.relationPath name) = .ok s) :
    (Source.scan store r (catalog.relationPath name)).Replays s
      ⟨catalog.table store name, none⟩ := by
  obtain ⟨r', lines, hr', hlines, hdecodes⟩ := hread
  cases hr.symm.trans hr'
  obtain ⟨reader, hreader, hpending⟩ := Option.bind_eq_some_iff.mp hlines
  have hstate : s.reader = reader := by
    rw [Source.openScan, toOption_eq_some hreader] at hopen
    cases hopen
    rfl
  have hreplays := Source.replays_scan r hopen
  rw [hstate, toOption_eq_some hpending] at hreplays
  dsimp only at hreplays
  rw [Relation.yields_of_decodes hdecodes] at hreplays
  unfold table
  rw [hr, hlines]
  exact hreplays

/-! ## A small database -/

/-- The file of one relation, with two lines. -/
def smallStore : Storage :=
  ⟨[(["R.csv"], .file 0)], #[⟨#[0x31, 0x2C, 0x32, 0x0A, 0x31, 0x2C, 0x33, 0x0A]⟩], []⟩

/-- The catalog of one relation, with two columns of integers. -/
def small : Catalog :=
  ⟨"", ⟨"schema.txt", "", "csv"⟩, [⟨"R", [.int, .int]⟩]⟩

theorem readable_small : small.Readable smallStore "R" := by
  refine ⟨⟨"R", [.int, .int]⟩, [.text ['1', ',', '2'], .text ['1', ',', '3']], rfl, rfl, ?_⟩
  intro l hl
  simp only [List.mem_cons, List.not_mem_nil, or_false] at hl
  rcases hl with rfl | rfl
  · exact ⟨_, rfl, fun _ => ⟨[.integer 1, .integer 2], rfl⟩⟩
  · exact ⟨_, rfl, fun _ => ⟨[.integer 1, .integer 3], rfl⟩⟩

end Catalog

end Conjunct
