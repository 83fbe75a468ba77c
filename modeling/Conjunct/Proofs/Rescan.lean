import Conjunct.Proofs.Edges
import Conjunct.Proofs.Machine
import Conjunct.Proofs.Origins
import Conjunct.Proofs.RoundTrip

/-!
# Written tuples

A result is a file with a tuple on each line, and that is what the file of a relation is. So a
result can be scanned in turn.

**Theorem (`Storage.scans_of_content`).** If every tuple of a list has the kinds of some columns, of
which there is one at least, and no string in it holds a comma or a line feed, then the scan of
their lines yields the tuples of the list.

A written constant begins and ends with a digit, a minus sign or a quote, and so with a character
that is not blank (`Constant.edged_render`). Therefore trimming takes nothing from a field, no line
of a result is blank, and none loses a carriage return. What a string holds between its quotes does
not matter, as only the outer ones are taken off.
-/

namespace Conjunct

/-! ## Constants -/

open Grammar in
theorem Integer.read?_of_integerText {cs : List Char} {n : Integer} (h : IntegerText cs n) :
    Integer.read? cs = some n := by
  cases h with
  | positive hne hds hn => rw [read?_digits hne hds, Integer.ofInt?_eq_some_iff.mpr hn]
  | negative hne hds hn => rw [read?_minus hne hds, Integer.ofInt?_eq_some_iff.mpr hn]

/-- An integer is written with digits and perhaps a minus sign. -/
theorem Integer.mem_render {n : Integer} {c : Char} (h : c ∈ n.render) :
    c = '-' ∨ Decimal.isDigit c = true := by
  unfold Integer.render at h
  split at h
  · exact (List.mem_cons.mp h).imp_right Decimal.isDigit_of_mem_toDigits
  · exact .inr (Decimal.isDigit_of_mem_toDigits h)

theorem Integer.render_ne_nil (n : Integer) : n.render ≠ [] := by
  unfold Integer.render
  split
  · exact List.cons_ne_nil _ _
  · exact Nat.toDigits_ne_nil

theorem isBlank_of_isDigit {c : Char} (h : Decimal.isDigit c = true) : Text.isBlank c = false := by
  have h0 : ('0' : Char).val.toNat = 48 := rfl
  have h9 : ('9' : Char).val.toNat = 57 := rfl
  simp only [Decimal.isDigit, Char.le_def, UInt32.le_iff_toNat_le, Bool.and_eq_true,
    decide_eq_true_eq] at h
  have hrange : 48 ≤ c.toNat ∧ c.toNat ≤ 57 := by
    rw [Char.toNat]
    omega
  simp [Text.isBlank]
  omega

namespace Constant

variable {c : Constant}

theorem toList_render_string (s : String) :
    (string s).render.toList = '\'' :: (s.toList ++ ['\'']) := by
  simp [render]

/-- **A written constant begins and ends with a character that is not blank.** -/
theorem edged_render (c : Constant) : Text.Edged c.render.toList := by
  cases c with
  | integer n =>
    refine Text.Edged.of_forall (by simpa [render] using Integer.render_ne_nil n) fun c hc => ?_
    rcases Integer.mem_render (n := n) (by simpa [render] using hc) with rfl | hdigit
    · decide
    · exact isBlank_of_isDigit hdigit
  | string s =>
    have hlast : ('\'' :: s.toList ++ ['\'']).getLast? = some '\'' := List.getLast?_concat
    rw [toList_render_string]
    exact ⟨⟨'\'', rfl, by decide⟩, '\'', hlast, by decide⟩

/-- The field of a constant that can stand between commas. -/
theorem IsField.of_mem_render (h : c.IsField) {a : Char} (ha : a ∈ c.render.toList) :
    a ≠ ',' ∧ a ≠ '\n' := by
  cases c with
  | integer n =>
    rcases Integer.mem_render (n := n) (by simpa [render] using ha) with rfl | hdigit
    · decide
    · exact ⟨fun heq => absurd (heq ▸ hdigit) (by decide),
        fun heq => absurd (heq ▸ hdigit) (by decide)⟩
  | string s =>
    rw [toList_render_string, List.mem_cons, List.mem_append, List.mem_singleton] at ha
    rcases ha with rfl | ha | rfl
    · decide
    · exact ⟨fun heq => h.1 (heq ▸ ha), fun heq => h.2 (heq ▸ ha)⟩
    · decide

/-- A written constant is read as a field of its kind. -/
theorem readField?_render (c : Constant) :
    Relation.readField? c.kind c.render.toList = some c := by
  cases c with
  | integer n =>
    have hread := Integer.read?_of_integerText (Grammar.integerText_render n)
    simp [Relation.readField?, kind, render, hread]
  | string s =>
    rw [toList_render_string]
    simp [Relation.readField?, kind, Relation.unquote?]

end Constant

/-! ## Lines of tuples -/

namespace Tuple

variable {kinds : List Kind} {t : Tuple} {ts : List Tuple}

/-- A tuple that a line can hold, under columns of the given kinds. -/
structure Fits (kinds : List Kind) (t : Tuple) : Prop where
  kinds : t.map Constant.kind = kinds
  fields : ∀ c ∈ t, c.IsField

/-- The text of some tuples, a line for each. -/
def renderLines : List Tuple → String
  | [] => ""
  | t :: ts => t.render ++ "\n" ++ renderLines ts

theorem render_eq (t : Tuple) :
    t.render = Text.joined (String.singleton ',') (t.map Constant.render) := rfl

theorem decodeFields_render (fault : String → EvalError) (number : Nat) (t : Tuple) :
    Relation.decodeFields fault number (t.map Constant.kind)
      (t.map fun c => c.render.toList) = .ok t := by
  induction t generalizing number with
  | nil => simp [Relation.decodeFields]
  | cons c t ih =>
    simp [Relation.decodeFields, c.readField?_render, ih, Except.map]

/-- The fields of a written tuple are its written constants. -/
theorem splitFields_render (hne : t ≠ []) (h : t.Fits kinds) :
    Relation.splitFields t.render.toList = t.map fun c => c.render.toList := by
  have hcomma : ∀ text ∈ t.map Constant.render, ',' ∉ text.toList := by
    intro text ht hc
    obtain ⟨c, hmem, rfl⟩ := List.mem_map.mp ht
    exact ((h.fields c hmem).of_mem_render hc).1 rfl
  rw [Relation.splitFields, render_eq, Text.splitOn_joined (by simpa using hne) hcomma,
    List.map_map, List.map_map]
  exact List.map_congr_left fun c _ => c.edged_render.trim_eq

/-- **A written tuple is decoded to itself.** -/
theorem decode_render (hne : t ≠ []) (h : t.Fits kinds) (name : String) (row : Nat) :
    Relation.decode ⟨name, kinds⟩ row t.render.toList = .ok t := by
  have hlength : t.length = kinds.length := by rw [← h.kinds, List.length_map]
  simp only [Relation.decode, splitFields_render hne h, List.length_map, Relation.arity, hlength,
    if_true]
  rw [← h.kinds]
  exact decodeFields_render _ _ t

theorem edged_render (hne : t ≠ []) : Text.Edged t.render.toList := by
  rw [render_eq]
  refine Text.edged_joined (by simpa using hne) fun text ht => ?_
  obtain ⟨c, -, rfl⟩ := List.mem_map.mp ht
  exact c.edged_render

theorem feed_not_mem_render (h : t.Fits kinds) : '\n' ∉ t.render.toList := by
  intro hfeed
  rw [render_eq] at hfeed
  rcases Text.mem_joined hfeed with heq | ⟨text, ht, hc⟩
  · exact absurd heq (by decide)
  · obtain ⟨c, hmem, rfl⟩ := List.mem_map.mp ht
    exact ((h.fields c hmem).of_mem_render hc).2 rfl

/-- A written tuple does not end in a carriage return, which would belong to the line ending. -/
theorem getLast?_render_ne (t : Tuple) : t.render.toList.getLast? ≠ some '\r' := by
  cases t with
  | nil => exact nofun
  | cons c t => exact (edged_render (List.cons_ne_nil c t)).getLast?_ne

/-- The lines of written tuples are the tuples, one by one. -/
theorem lines_renderLines (hts : ∀ t ∈ ts, t.Fits kinds) :
    Text.lines (renderLines ts) = ts.map fun t => t.render.toList := by
  have htext : (renderLines ts).toList =
      (ts.map fun t => t.render.toList).flatMap (· ++ ['\n']) := by
    clear hts
    induction ts with
    | nil => rfl
    | cons t ts ih => simp [renderLines, ih]
  apply Text.lines_of_ended htext
  · intro line hline
    obtain ⟨t, ht, rfl⟩ := List.mem_map.mp hline
    exact feed_not_mem_render (hts t ht)
  · intro line hline
    obtain ⟨t, -, rfl⟩ := List.mem_map.mp hline
    exact t.getLast?_render_ne

end Tuple

namespace Storage

/-- A file holds some tuples under columns of the given kinds: under any name, scanning it for any
atom yields them and no error. -/
def Scans (store : Storage) (path : Path) (kinds : List Kind) (ts : List Tuple) : Prop :=
  ∀ (name : String) (atom : Atom), ∃ m, Machine.scan store ⟨name, kinds⟩ path atom = .ok m ∧
    (m.collect store).1 = (ts, none)

/-- **The lines of tuples are scanned as the tuples.** -/
theorem scans_of_content {store : Storage} {path : Path} {kinds : List Kind} {ts : List Tuple}
    {number : Nat} (hkinds : kinds ≠ []) (hts : ∀ t ∈ ts, t.Fits kinds)
    (hopen : store.openReader path = .ok (.unread number))
    (hcontent : store.content number = (Tuple.renderLines ts).toUTF8) :
    store.Scans path kinds ts := by
  intro name atom
  have hne : ∀ t ∈ ts, t ≠ [] := by
    rintro t ht rfl
    exact hkinds (hts [] ht).kinds.symm
  have hlines : Line.ofContent (store.content number) =
      ts.map fun t => .text t.render.toList := by
    rw [hcontent, Line.ofContent_toUTF8, Tuple.lines_renderLines hts, List.map_map]
    rfl
  have hdecodes : Relation.Decodes ⟨name, kinds⟩ (ts.map fun t => .text t.render.toList) := by
    intro l hl
    obtain ⟨t, ht, rfl⟩ := List.mem_map.mp hl
    exact ⟨_, rfl, fun _ => ⟨t, Tuple.decode_render (hne t ht) (hts t ht) name 0⟩⟩
  have hrows : (ts.map fun t => Line.text t.render.toList).filterMap
      (Relation.row? ⟨name, kinds⟩) = ts := by
    rw [List.filterMap_map]
    refine (List.filterMap_congr fun t ht => ?_).trans List.filterMap_some
    simp [Relation.row?, (Tuple.edged_render (hne t ht)).not_blank,
      Tuple.decode_render (hne t ht) (hts t ht), Except.toOption]
  have hscan : Source.openScan store path = .ok ⟨.unread number, 0⟩ := by
    simp [Source.openScan, hopen]
  refine ⟨⟨.scan ⟨name, kinds⟩ path atom, ⟨.unread number, 0⟩⟩, ?_, ?_⟩
  · simp [Machine.scan, hscan, Except.map]
  · have hreplays := Source.replays_scan ⟨name, kinds⟩ hscan
    simp only [Reader.pending, hlines, Relation.yields_of_decodes hdecodes, hrows] at hreplays
    exact Machine.collect_eq_of_replays (o := ⟨ts, none⟩) hreplays

end Storage

end Conjunct
