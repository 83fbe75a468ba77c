import Conjunct.Catalog
import Conjunct.Proofs.Edges
import Conjunct.Proofs.Files
import Conjunct.Proofs.Sorting
import Mathlib.Data.List.Nodup

/-!
# Schemas

Which texts are schemas, and what a catalog is told by one.

**Theorem (`Catalog.load_exact`).** A catalog is built from exactly the texts whose lines are blank
or declare a relation, no two of them one of the same name. The catalog knows the declared relations
and no others, so the order of the lines does not matter. Any other text is refused at the first
line with which it ceases to be a schema, for the first of three reasons that this line gives.

A line is read by its words. They are all that the line has besides blanks (`Text.words_eq_iff`), so
a line declares at most one relation, and a fault of a line excludes that it declares one. Reading
goes on as long as the lines so far are a schema; this is the invariant of the run, and it is kept
by a line that is blank or declares a new name (`Catalog.readLines_step`).
-/

namespace Conjunct

/-! ## Words -/

namespace Text

/-- A word has characters, and none of them is blank. -/
def IsWord (w : List Char) : Prop :=
  w ≠ [] ∧ ∀ c ∈ w, isBlank c = false

/-- A text consists of words with blanks between them, and perhaps around them. -/
inductive Worded : List Char → List (List Char) → Prop
  | nil {u : List Char} : IsBlanks u → Worded u []
  | cons {u w rest : List Char} {ws : List (List Char)} :
      IsBlanks u → IsWord w → (∀ c ∈ rest.head?, isBlank c = true) → Worded rest ws →
      Worded (u ++ (w ++ rest)) (w :: ws)

variable {cs u w rest : List Char} {ws : List (List Char)}

theorem words_append_of_blanks (hu : IsBlanks u) (cs : List Char) : words (u ++ cs) = words cs := by
  induction u with
  | nil => rfl
  | cons c u ih =>
    obtain ⟨hc, hu⟩ := List.forall_mem_cons.mp hu
    rw [← ih hu, words, words, List.cons_append, List.splitOnP_cons_eq_if_modifyHead, if_pos hc]
    simp

theorem words_append_of_word (hw : IsWord w) (hrest : ∀ c ∈ rest.head?, isBlank c = true) :
    words (w ++ rest) = w :: words rest := by
  obtain ⟨hne, hw⟩ := hw
  cases rest with
  | nil => simp [words, List.splitOnP_eq_singleton hw, hne]
  | cons c rest =>
    have hc : isBlank c = true := hrest c rfl
    rw [words, words, List.splitOnP_append_cons_of_forall_mem hw c hc,
      List.splitOnP_cons_eq_if_modifyHead, if_pos hc]
    simp [hne]

theorem Worded.words_eq (h : Worded cs ws) : words cs = ws := by
  induction h with
  | @nil u hu =>
    have hwords := words_append_of_blanks hu []
    rwa [List.append_nil] at hwords
  | cons hu hw hrest _ ih => rw [words_append_of_blanks hu, words_append_of_word hw hrest, ih]

/-- A text that does not begin with a blank begins with a word. -/
theorem exists_word {c : Char} (hc : isBlank c = false) (cs : List Char) :
    ∃ w rest, IsWord w ∧ (∀ d ∈ rest.head?, isBlank d = true) ∧ c :: cs = w ++ rest := by
  refine ⟨(c :: cs).takeWhile (!isBlank ·), (c :: cs).dropWhile (!isBlank ·), ⟨?_, ?_⟩, ?_,
    List.takeWhile_append_dropWhile.symm⟩
  · simp [hc]
  · intro d hd
    simpa using List.all_eq_true.mp List.all_takeWhile d hd
  · intro d hd
    have hhead := List.head?_dropWhile_not (!isBlank ·) (c :: cs)
    rw [Option.mem_def.mp hd] at hhead
    simpa using hhead

theorem exists_worded (cs : List Char) : ∃ ws, Worded cs ws := by
  -- The blanks in front and one word are cut off; the recursion is on the length of what is left.
  have hcs : cs = cs.takeWhile isBlank ++ cs.dropWhile isBlank :=
    List.takeWhile_append_dropWhile.symm
  have hu : IsBlanks (cs.takeWhile isBlank) := List.all_eq_true.mp List.all_takeWhile
  generalize cs.takeWhile isBlank = u at hcs hu
  cases hback : cs.dropWhile isBlank with
  | nil =>
    rw [hback, List.append_nil] at hcs
    exact ⟨[], .nil (hcs ▸ hu)⟩
  | cons c back =>
    have hhead : (cs.dropWhile isBlank).head? = some c := by rw [hback]; rfl
    have hc : isBlank c = false := isBlank_of_head?_dropWhile hhead
    obtain ⟨w, rest, hw, hrest, hsplit⟩ := exists_word hc back
    rw [hback, hsplit] at hcs
    have hlen : rest.length < cs.length := by
      have hpos := List.length_pos_iff.mpr hw.1
      rw [hcs]
      simp only [List.length_append]
      omega
    obtain ⟨ws, hws⟩ := exists_worded rest
    exact ⟨w :: ws, hcs ▸ .cons hu hw hrest hws⟩
termination_by cs.length

/-- The words of a text are what it consists of besides blanks. -/
theorem words_eq_iff : words cs = ws ↔ Worded cs ws := by
  constructor
  · intro h
    obtain ⟨ws', hws'⟩ := exists_worded cs
    rwa [← h, hws'.words_eq]
  · exact Worded.words_eq

theorem words_eq_nil_iff : words cs = [] ↔ IsBlanks cs := by
  rw [words_eq_iff]
  constructor
  · intro h
    cases h with
    | nil hu => exact hu
  · exact Worded.nil

end Text

/-! ## Declarations -/

namespace Catalog

open Text (Worded IsBlanks)

/-- A line declares a relation by its name and then, for each column, the word for its kind. There
is one column at least. -/
def Declares (line : List Char) (r : Relation) : Prop :=
  Worded line ((r.name :: r.columns.map Kind.name).map String.toList) ∧ r.columns ≠ []

/-- What is wrong with a line in itself: the first word behind the name that is not the word for a
kind, or that there is no word behind the name. -/
inductive Faulty (number : Nat) (line : List Char) : CatalogError → Prop
  | unknownType {name : String} {kinds : List Kind} {bad : String} {rest : List String} :
      Worded line ((name :: (kinds.map Kind.name ++ bad :: rest)).map String.toList) →
      (∀ k : Kind, bad ≠ k.name) → Faulty number line (.unknownType number bad)
  | noColumns {name : String} :
      Worded line [name.toList] →
      Faulty number line (.malformed number ("Relation '" ++ name ++ "' declares no columns"))

/-- Lines that are blank or declare the given relations, one after the other. -/
inductive Declared : List (List Char) → List Relation → Prop
  | nil : Declared [] []
  | blank {line : List Char} {lines : List (List Char)} {rs : List Relation} :
      IsBlanks line → Declared lines rs → Declared (line :: lines) rs
  | cons {line : List Char} {lines : List (List Char)} {r : Relation} {rs : List Relation} :
      Declares line r → Declared lines rs → Declared (line :: lines) (r :: rs)

/-- Every line is blank or declares a relation, and no two lines declare relations of one name. -/
structure IsSchema (lines : List (List Char)) : Prop where
  declares : ∀ line ∈ lines, IsBlanks line ∨ ∃ r, Declares line r
  distinct : lines.Pairwise fun l l' => ∀ r r', Declares l r → Declares l' r' → r.name ≠ r'.name

variable {line : List Char} {lines lines' before : List (List Char)} {relations rs : List Relation}
  {r r' : Relation} {words : List String} {number : Nat} {e : CatalogError}

/-! ### What a line declares -/

theorem words_of_worded (h : Worded line (words.map String.toList)) :
    (Text.words line).map String.ofList = words := by
  rw [h.words_eq, List.map_map]
  exact List.map_id'' (fun w => String.ofList_toList) words

theorem worded_words_map (line : List Char) :
    Worded line (((Text.words line).map String.ofList).map String.toList) := by
  rw [List.map_map]
  have hid : (Text.words line).map (String.toList ∘ String.ofList) = Text.words line :=
    List.map_id'' (fun w => String.toList_ofList) _
  rw [hid]
  exact Text.words_eq_iff.mp rfl

theorem readKinds_map_name (number : Nat) (kinds : List Kind) :
    readKinds number (kinds.map Kind.name) = .ok kinds := by
  induction kinds with
  | nil => rfl
  | cons k kinds ih =>
    rw [List.map_cons, readKinds, Kind.ofName?_name]
    simp only [ih]
    rfl

theorem readKinds_of_bad {kinds : List Kind} {bad : String} {rest : List String}
    (hbad : ∀ k : Kind, bad ≠ k.name) :
    readKinds number (kinds.map Kind.name ++ bad :: rest) = .error (.unknownType number bad) := by
  induction kinds with
  | nil =>
    have hnone : Kind.ofName? bad = none := by
      cases hk : Kind.ofName? bad with
      | none => rfl
      | some k => exact absurd (Kind.ofName?_eq_some_iff.mp hk) (hbad k)
    rw [List.map_nil, List.nil_append, readKinds, hnone]
  | cons k kinds ih =>
    rw [List.map_cons, List.cons_append, readKinds, Kind.ofName?_name]
    simp only [ih]
    rfl

/-- Words are the words for kinds up to their end, or up to the first that is not. -/
theorem exists_kinds_or_bad (words : List String) :
    (∃ kinds : List Kind, words = kinds.map Kind.name) ∨
      ∃ (kinds : List Kind) (bad : String) (rest : List String),
        words = kinds.map Kind.name ++ bad :: rest ∧ ∀ k : Kind, bad ≠ k.name := by
  induction words with
  | nil => exact .inl ⟨[], rfl⟩
  | cons word words ih =>
    by_cases hword : ∃ k : Kind, word = k.name
    · obtain ⟨k, rfl⟩ := hword
      rcases ih with ⟨kinds, rfl⟩ | ⟨kinds, bad, rest, rfl, hbad⟩
      · exact .inl ⟨k :: kinds, rfl⟩
      · exact .inr ⟨k :: kinds, bad, rest, rfl, hbad⟩
    · exact .inr ⟨[], word, words, rfl, fun k hk => hword ⟨k, hk⟩⟩

theorem Declares.readDeclaration (h : Declares line r) (number : Nat) :
    Text.words line ≠ [] ∧
      readDeclaration number ((Text.words line).map String.ofList) = .ok r := by
  obtain ⟨hworded, hcolumns⟩ := h
  refine ⟨by simp [hworded.words_eq], ?_⟩
  rw [words_of_worded hworded, Catalog.readDeclaration, readKinds_map_name]
  obtain ⟨name, columns⟩ := r
  cases columns with
  | nil => exact absurd rfl hcolumns
  | cons k columns => rfl

theorem Faulty.readDeclaration (h : Faulty number line e) :
    Text.words line ≠ [] ∧
      readDeclaration number ((Text.words line).map String.ofList) = .error e := by
  cases h with
  | unknownType hworded hbad =>
    refine ⟨by simp [hworded.words_eq], ?_⟩
    rw [words_of_worded hworded, Catalog.readDeclaration, readKinds_of_bad hbad]
  | @noColumns name hworded =>
    have hwords : (Text.words line).map String.ofList = [name] := words_of_worded hworded
    refine ⟨by simp [hworded.words_eq], ?_⟩
    rw [hwords]
    rfl

theorem line_cases (number : Nat) (line : List Char) :
    IsBlanks line ∨ (∃ r, Declares line r) ∨ ∃ e, Faulty number line e := by
  have hworded := worded_words_map line
  cases hwords : (Text.words line).map String.ofList with
  | nil => exact .inl (Text.words_eq_nil_iff.mp (List.map_eq_nil_iff.mp hwords))
  | cons name words =>
    rw [hwords] at hworded
    rcases exists_kinds_or_bad words with ⟨kinds, rfl⟩ | ⟨kinds, bad, rest, rfl, hbad⟩
    · cases kinds with
      | nil => exact .inr (.inr ⟨_, .noColumns hworded⟩)
      | cons k kinds => exact .inr (.inl ⟨⟨name, k :: kinds⟩, hworded, by simp⟩)
    · exact .inr (.inr ⟨_, .unknownType hworded hbad⟩)

theorem Declares.unique (h : Declares line r) (h' : Declares line r') : r = r' := by
  have hread := (h.readDeclaration 0).2
  rw [(h'.readDeclaration 0).2] at hread
  exact (Except.ok.inj hread).symm

theorem Declares.not_blanks (h : Declares line r) : ¬ IsBlanks line :=
  fun hblank => (h.readDeclaration 0).1 (Text.words_eq_nil_iff.mpr hblank)

theorem Faulty.not_declares (h : Faulty number line e) :
    ¬ (IsBlanks line ∨ ∃ r, Declares line r) := by
  rintro (hblank | ⟨r, hr⟩)
  · exact h.readDeclaration.1 (Text.words_eq_nil_iff.mpr hblank)
  · have hread := h.readDeclaration.2
    rw [(hr.readDeclaration number).2] at hread
    cases hread

/-! ### Reading a line -/

theorem readLines_of_blanks (h : IsBlanks line) :
    readLines relations number (line :: lines) = readLines relations (number + 1) lines := by
  rw [readLines, if_pos (Text.words_eq_nil_iff.mpr h)]

theorem readLines_of_declares (h : Declares line r) (hnew : r.name ∉ relations.map Relation.name) :
    readLines relations number (line :: lines) =
      readLines (relations ++ [r]) (number + 1) lines := by
  obtain ⟨hne, hread⟩ := h.readDeclaration number
  rw [readLines, if_neg hne, hread]
  simp only [bind, Except.bind, declare, if_neg hnew]

theorem readLines_of_duplicate (h : Declares line r) (hold : r.name ∈ relations.map Relation.name) :
    readLines relations number (line :: lines) = .error (.duplicateRelation number r.name) := by
  obtain ⟨hne, hread⟩ := h.readDeclaration number
  rw [readLines, if_neg hne, hread]
  simp only [bind, Except.bind, declare, if_pos hold]

theorem readLines_of_faulty (h : Faulty number line e) :
    readLines relations number (line :: lines) = .error e := by
  obtain ⟨hne, hread⟩ := h.readDeclaration
  rw [readLines, if_neg hne, hread]
  rfl

/-! ### Reading all lines -/

/-- What a line does that cannot follow lines which declare the given relations. -/
inductive Refused (relations : List Relation) (number : Nat) (line : List Char) :
    CatalogError → Prop
  | faulty {e : CatalogError} : Faulty number line e → Refused relations number line e
  | duplicate {r : Relation} :
      Declares line r → r.name ∈ relations.map Relation.name →
      Refused relations number line (.duplicateRelation number r.name)

theorem Declared.append {rs' : List Relation} (h : Declared lines rs) (h' : Declared lines' rs') :
    Declared (lines ++ lines') (rs ++ rs') := by
  induction h with
  | nil => exact h'
  | blank hblank _ ih => exact .blank hblank ih
  | cons hr _ ih => exact .cons hr ih

/-- One line is passed, perhaps with one more relation, or reading ends at it. -/
theorem readLines_step (hnodup : (relations.map Relation.name).Nodup) (number : Nat)
    (line : List Char) (lines : List (List Char)) :
    (∃ rs, Declared [line] rs ∧ ((relations ++ rs).map Relation.name).Nodup ∧
        readLines relations number (line :: lines) =
          readLines (relations ++ rs) (number + 1) lines) ∨
      ∃ e, Refused relations number line e ∧
        readLines relations number (line :: lines) = .error e := by
  rcases line_cases number line with hblank | ⟨r, hr⟩ | ⟨e, he⟩
  · refine .inl ⟨[], .blank hblank .nil, by simpa using hnodup, ?_⟩
    rw [readLines_of_blanks hblank, List.append_nil]
  · by_cases hold : r.name ∈ relations.map Relation.name
    · exact .inr ⟨_, .duplicate hr hold, readLines_of_duplicate hr hold⟩
    · have hdeclare : declare relations number r = .ok (relations ++ [r]) := by
        rw [declare, if_neg hold]
      exact .inl ⟨[r], .cons hr .nil, nodup_declare hdeclare hnodup, readLines_of_declares hr hold⟩
  · exact .inr ⟨e, .faulty he, readLines_of_faulty he⟩

/-- All lines are read, or reading ends at the first line that cannot follow those before it. -/
theorem readLines_cases (hnodup : (relations.map Relation.name).Nodup) (number : Nat)
    (lines : List (List Char)) :
    (∃ rs, Declared lines rs ∧ ((relations ++ rs).map Relation.name).Nodup ∧
        readLines relations number lines = .ok (relations ++ rs)) ∨
      ∃ before line after rs e, lines = before ++ line :: after ∧ Declared before rs ∧
        ((relations ++ rs).map Relation.name).Nodup ∧
        Refused (relations ++ rs) (number + before.length) line e ∧
        readLines relations number lines = .error e := by
  induction lines generalizing relations number with
  | nil => exact .inl ⟨[], .nil, by simpa using hnodup, by simp [readLines]⟩
  | cons line lines ih =>
    rcases readLines_step hnodup number line lines with
      ⟨rs, hrs, hnodup', hstep⟩ | ⟨e, he, hstep⟩
    · rw [hstep]
      rcases ih hnodup' (number + 1) with
        ⟨rs', hrs', hdistinct, hread⟩ |
          ⟨before, bad, after, rs', e, rfl, hrs', hdistinct, he, hread⟩
      · rw [List.append_assoc] at hdistinct hread
        exact .inl ⟨rs ++ rs', hrs.append hrs', hdistinct, hread⟩
      · rw [List.append_assoc] at hdistinct he
        have hnumber : number + 1 + before.length = number + (line :: before).length := by
          rw [List.length_cons]
          omega
        rw [hnumber] at he
        exact .inr ⟨line :: before, bad, after, rs ++ rs', e, rfl, hrs.append hrs', hdistinct, he,
          hread⟩
    · exact .inr ⟨[], line, lines, [], e, rfl, .nil, by simpa using hnodup, by simpa using he,
        hstep⟩

/-! ### Schemas -/

theorem Declared.mem_iff (h : Declared lines rs) : r ∈ rs ↔ ∃ line ∈ lines, Declares line r := by
  induction h with
  | nil => simp
  | @blank line lines rs hblank _ ih =>
    have hnone : ¬ Declares line r := fun hr => hr.not_blanks hblank
    simp [ih, hnone]
  | @cons line lines r' rs hr' _ ih =>
    have hhead : r = r' ↔ Declares line r := by
      constructor
      · rintro rfl
        exact hr'
      · exact fun hr => hr.unique hr'
    simp [ih, hhead]

theorem Declared.isSchema (h : Declared lines rs) (hnodup : (rs.map Relation.name).Nodup) :
    IsSchema lines := by
  induction h with
  | nil => exact ⟨by simp, .nil⟩
  | @blank line lines rs hblank _ ih =>
    obtain ⟨hdeclares, hdistinct⟩ := ih hnodup
    refine ⟨List.forall_mem_cons.mpr ⟨.inl hblank, hdeclares⟩, .cons ?_ hdistinct⟩
    intro l _ r r' hr
    exact absurd hblank hr.not_blanks
  | @cons line lines r rs hr hrs ih =>
    rw [List.map_cons, List.nodup_cons] at hnodup
    obtain ⟨hdeclares, hdistinct⟩ := ih hnodup.2
    refine ⟨List.forall_mem_cons.mpr ⟨.inr ⟨r, hr⟩, hdeclares⟩, .cons ?_ hdistinct⟩
    intro l hl r₁ r₂ h₁ h₂ hname
    apply hnodup.1
    rw [hr.unique h₁, hname]
    exact List.mem_map_of_mem (hrs.mem_iff.mpr ⟨l, hl, h₂⟩)

theorem IsSchema.sublist (h : IsSchema lines) (hsub : lines'.Sublist lines) : IsSchema lines' :=
  ⟨fun line hline => h.declares line (hsub.subset hline), h.distinct.sublist hsub⟩

theorem IsSchema.perm (h : IsSchema lines) (hperm : lines'.Perm lines) : IsSchema lines' := by
  refine ⟨fun line hline => h.declares line (hperm.subset hline), ?_⟩
  refine (hperm.pairwise_iff ?_).mpr h.distinct
  intro l l' hl r r' hr hr' hname
  exact hl r' r hr' hr hname.symm

/-- A line that cannot follow others makes them no schema. -/
theorem Refused.not_isSchema (h : Refused rs number line e) (hbefore : Declared before rs) :
    ¬ IsSchema (before ++ [line]) := by
  intro hschema
  cases h with
  | faulty hfaulty => exact hfaulty.not_declares (hschema.declares line (by simp))
  | @duplicate r hr hold =>
    obtain ⟨r', hmem, hname⟩ := List.mem_map.mp hold
    obtain ⟨l, hl, hr'⟩ := hbefore.mem_iff.mp hmem
    obtain ⟨-, -, hapart⟩ := List.pairwise_append.mp hschema.distinct
    exact hapart l hl line (by simp) r' r hr' hr hname

/-! ### Catalogs -/

variable {store store' : Storage} {root root' : Path} {layout layout' : Layout}
  {text text' : String} {c c' : Catalog}

/-- What comes of a schema file: a catalog of what its lines declare, or the error of the first line
with which the text ceases to be a schema. -/
theorem load_cases (htext : store.readText (root.join layout.schemaFile) = .ok text) :
    (∃ rs, Declared (Text.lines text) rs ∧ (rs.map Relation.name).Nodup ∧
        load store root layout = .ok ⟨root, layout, rs⟩) ∨
      ∃ before line after e, Text.lines text = before ++ line :: after ∧ IsSchema before ∧
        ¬ IsSchema (before ++ [line]) ∧
        (Faulty (before.length + 1) line e ∨
          ∃ r, Declares line r ∧ e = .duplicateRelation (before.length + 1) r.name) ∧
        load store root layout = .error e := by
  rw [load_of_readText htext]
  have hnone : (([] : List Relation).map Relation.name).Nodup := List.nodup_nil
  rcases readLines_cases hnone 1 (Text.lines text) with
    ⟨rs, hrs, hnodup, hread⟩ | ⟨before, line, after, rs, e, hlines, hrs, hnodup, he, hread⟩
  · rw [List.nil_append] at hnodup hread
    exact .inl ⟨rs, hrs, hnodup, by rw [hread]; rfl⟩
  · rw [List.nil_append] at hnodup he
    refine .inr ⟨before, line, after, e, hlines, hrs.isSchema hnodup, he.not_isSchema hrs, ?_,
      by rw [hread]; rfl⟩
    rw [Nat.add_comm]
    cases he with
    | faulty he => exact .inl he
    | duplicate hr _ => exact .inr ⟨_, hr, rfl⟩

theorem exists_load_iff (htext : store.readText (root.join layout.schemaFile) = .ok text) :
    (∃ c, load store root layout = .ok c) ↔ IsSchema (Text.lines text) := by
  rcases load_cases htext with ⟨rs, hrs, hnodup, hload⟩ |
    ⟨before, line, after, e, hlines, -, hnot, -, hload⟩
  · exact ⟨fun _ => hrs.isSchema hnodup, fun _ => ⟨_, hload⟩⟩
  · constructor
    · rintro ⟨c, hc⟩
      rw [hload] at hc
      cases hc
    · intro hschema
      have hfront : before ++ [line] <+: Text.lines text := ⟨after, by simp [hlines]⟩
      exact absurd (hschema.sublist hfront.sublist) hnot

/-- The relation with a name is the declared one, if there is one. -/
theorem relation?_eq_some_iff (hnodup : (c.relations.map Relation.name).Nodup) {name : String} :
    c.relation? name = some r ↔ r.name = name ∧ r ∈ c.relations := by
  have of_find : ∀ {r}, c.relation? name = some r → r.name = name ∧ r ∈ c.relations := by
    intro r h
    unfold relation? at h
    exact ⟨by simpa using List.find?_some h, List.mem_of_find?_eq_some h⟩
  refine ⟨of_find, fun ⟨hname, hmem⟩ => ?_⟩
  cases hfind : c.relation? name with
  | none =>
    unfold relation? at hfind
    simpa [hname] using List.find?_eq_none.mp hfind r hmem
  | some r' =>
    obtain ⟨hname', hmem'⟩ := of_find hfind
    rw [List.inj_on_of_nodup_map hnodup hmem' hmem (hname'.trans hname.symm)]

theorem relation?_eq_some_iff_declares
    (htext : store.readText (root.join layout.schemaFile) = .ok text)
    (hload : load store root layout = .ok c) {name : String} :
    c.relation? name = some r ↔ r.name = name ∧ ∃ line ∈ Text.lines text, Declares line r := by
  rw [relation?_eq_some_iff (nodup_names hload)]
  rcases load_cases htext with ⟨rs, hrs, hnodup, hload'⟩ |
    ⟨before, line, after, e, hlines, -, hnot, -, hload'⟩
  · rw [hload] at hload'
    cases hload'
    rw [hrs.mem_iff]
  · rw [hload] at hload'
    cases hload'

theorem mem_names_iff (hc : (c.relations.map Relation.name).Nodup) {name : String} :
    name ∈ c.relations.map Relation.name ↔ ∃ r, c.relation? name = some r := by
  simp only [List.mem_map, relation?_eq_some_iff hc, and_comm]

/-- Catalogs that know the same relations list the same names. -/
theorem names_congr (hc : (c.relations.map Relation.name).Nodup)
    (hc' : (c'.relations.map Relation.name).Nodup) (h : c'.relation? = c.relation?) :
    c'.names = c.names := by
  have hperm : (c'.relations.map Relation.name).Perm (c.relations.map Relation.name) := by
    refine (List.perm_ext_iff_of_nodup hc' hc).mpr fun name => ?_
    rw [mem_names_iff hc', mem_names_iff hc, h]
  have hinj : ∀ a ∈ c'.relations.map Relation.name, ∀ b ∈ c'.relations.map Relation.name,
      id a = id b → a = b := fun _ _ _ _ heq => heq
  exact mergeSort_eq_of_perm hperm hinj

/-- **The schemas are read, and nothing else.** A catalog is built from exactly the texts that are a
schema line by line, and it knows exactly the declared relations. The order of the lines does not
matter. A text that is no schema is refused at the first line with which it ceases to be one:
because of the first word of this line that should name a kind and does not, or else because it
names no column, or else because its name has been declared before. -/
theorem load_exact (htext : store.readText (root.join layout.schemaFile) = .ok text) :
    ((∃ c, load store root layout = .ok c) ↔ IsSchema (Text.lines text)) ∧
    (∀ c, load store root layout = .ok c → ∀ name r,
      c.relation? name = some r ↔ r.name = name ∧ ∃ line ∈ Text.lines text, Declares line r) ∧
    (∀ c, load store root layout = .ok c → ∀ store' root' layout' text',
      store'.readText (root'.join layout'.schemaFile) = .ok text' →
      (Text.lines text').Perm (Text.lines text) →
      ∃ c', load store' root' layout' = .ok c' ∧ c'.relation? = c.relation? ∧
        c'.names = c.names) ∧
    ∀ e, load store root layout = .error e → ∃ n line, (Text.lines text)[n]? = some line ∧
      e.line? = some (n + 1) ∧ (∀ m ≤ n, IsSchema ((Text.lines text).take m)) ∧
      ¬ IsSchema ((Text.lines text).take (n + 1)) ∧
      (Faulty (n + 1) line e ∨ ∃ r, Declares line r ∧ e = .duplicateRelation (n + 1) r.name) := by
  refine ⟨exists_load_iff htext, fun c hload name r => relation?_eq_some_iff_declares htext hload,
    ?_, ?_⟩
  · intro c hload store' root' layout' text' htext' hperm
    have hschema := (exists_load_iff htext).mp ⟨c, hload⟩
    obtain ⟨c', hload'⟩ := (exists_load_iff htext').mpr (hschema.perm hperm)
    have hsame : c'.relation? = c.relation? := by
      funext name
      apply Option.ext
      intro r
      rw [relation?_eq_some_iff_declares htext' hload',
        relation?_eq_some_iff_declares htext hload]
      simp only [hperm.mem_iff]
    exact ⟨c', hload', hsame, names_congr (nodup_names hload) (nodup_names hload') hsame⟩
  · intro e hload
    rcases load_cases htext with ⟨rs, -, -, hload'⟩ |
      ⟨before, line, after, e', hlines, hbefore, hnot, he, hload'⟩
    · rw [hload] at hload'
      cases hload'
    · rw [hload] at hload'
      cases hload'
      refine ⟨before.length, line, by simp [hlines], ?_, ?_, ?_, he⟩
      · rcases he with he | ⟨r, -, rfl⟩
        · cases he <;> rfl
        · rfl
      · intro m hm
        rw [hlines, List.take_append_of_le_length hm]
        exact hbefore.sublist (List.take_sublist m before)
      · rw [hlines, ← List.concat_append, List.take_left' (List.length_concat ..),
          List.concat_eq_append]
        exact hnot

/-- A storage whose schema file has the given text. -/
def schemaStorage (text : String) : Storage :=
  ⟨[(["schema.txt"], .file 0)], #[text.toUTF8], []⟩

theorem readText_schemaStorage (text : String) :
    (schemaStorage text).readText (Path.join "" ({} : Layout).schemaFile) = .ok text :=
  Storage.readText_of_find rfl rfl

/-- Two declarations in two orders, with blank lines, a carriage return and a blank that is no
space; and a third line that is at fault for its second kind, before the fourth can be for its
name. -/
theorem load_exact_twoOrders :
    (∃ c, load (schemaStorage "R int int\r\n \n\u00a0S\tstring") "" {} = .ok c ∧
      c.relation? "S" = some ⟨"S", [.string]⟩ ∧
      ∃ c', load (schemaStorage "\u00a0S\tstring\n \nR int int\n") "" {} = .ok c' ∧
        c'.relation? = c.relation? ∧ c'.names = c.names) ∧
    load (schemaStorage "R int\n\nS int float text\nR") "" {} =
      .error (.unknownType 3 "float") ∧
    IsSchema ["R int".toList, []] ∧
    ¬ IsSchema ["R int".toList, [], "S int float text".toList] := by
  obtain ⟨-, -, horder, -⟩ := load_exact (readText_schemaStorage "R int int\r\n \n\u00a0S\tstring")
  obtain ⟨-, -, -, hrefuse⟩ := load_exact (readText_schemaStorage "R int\n\nS int float text\nR")
  have hload : load (schemaStorage "R int int\r\n \n\u00a0S\tstring") "" {} =
      .ok ⟨"", {}, [⟨"R", [.int, .int]⟩, ⟨"S", [.string]⟩]⟩ := by
    rw [load_of_readText (readText_schemaStorage _)]
    rfl
  have hfail : load (schemaStorage "R int\n\nS int float text\nR") "" {} =
      .error (.unknownType 3 "float") := by
    rw [load_of_readText (readText_schemaStorage _)]
    rfl
  obtain ⟨n, line, -, hn, hgood, hbad, -⟩ := hrefuse _ hfail
  obtain rfl : n = 2 := by simpa [CatalogError.line?] using hn.symm
  have hlines : Text.lines "R int\n\nS int float text\nR" =
      ["R int".toList, [], "S int float text".toList, "R".toList] := by decide +kernel
  rw [hlines] at hgood hbad
  exact ⟨⟨_, hload, by decide +kernel,
      horder _ hload _ _ _ _ (readText_schemaStorage _) (by decide +kernel)⟩,
    hfail, hgood 2 (Nat.le_refl 2), hbad⟩

end Catalog

end Conjunct
