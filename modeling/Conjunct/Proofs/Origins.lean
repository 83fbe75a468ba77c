import Conjunct.Proofs.Lines
import Conjunct.Proofs.Table

/-!
# Where values come from

The values in a tuple come from columns of relations, or are totals. Such an *origin* says of a value
what its kind is, and that it can stand between the commas of a line again.

**Theorem (`Relation.from_of_decode`).** The fields of a decoded line come from the columns of the
relation, one from each.

A tuple that comes from some origins has a value at each of their positions, so it can be projected
to any of them (`Tuple.From.project?`).
-/

namespace Conjunct

/-! ## Origins -/

/-- Where values come from. -/
inductive Origin where
  /-- A column of a relation. -/
  | column (relation : Relation) (position : Nat)
  /-- A sum over tuples. -/
  | total
  deriving DecidableEq

/-- The kind of the values from an origin. -/
def Origin.kind? : Origin → Option Kind
  | column relation position => relation.columns[position]?
  | total => some .int

/-- A total, or a column that a catalog declares. -/
def Origin.Declared (catalog : Catalog) : Origin → Prop
  | column relation position =>
    catalog.relation? relation.name = some relation ∧ position < relation.arity
  | total => True

theorem Origin.Declared.exists_kind {catalog : Catalog} {o : Origin} (h : o.Declared catalog) :
    ∃ kind, o.kind? = some kind := by
  cases o with
  | column relation position => exact ⟨_, List.getElem?_eq_getElem h.2⟩
  | total => exact ⟨.int, rfl⟩

theorem Origin.exists_kinds_of_declared {catalog : Catalog} {os : List Origin}
    (h : ∀ o ∈ os, o.Declared catalog) :
    ∃ kinds : List Kind, os.map Origin.kind? = kinds.map some := by
  induction os with
  | nil => exact ⟨[], rfl⟩
  | cons o os ih =>
    obtain ⟨ho, hrest⟩ := List.forall_mem_cons.mp h
    obtain ⟨kind, hkind⟩ := ho.exists_kind
    obtain ⟨kinds, hkinds⟩ := ih hrest
    exact ⟨kind :: kinds, by rw [List.map_cons, List.map_cons, hkind, hkinds]⟩

/-- A constant that can stand between the commas of a line. -/
def Constant.IsField : Constant → Prop
  | integer _ => True
  | string s => ',' ∉ s.toList ∧ '\n' ∉ s.toList

instance : DecidablePred Constant.IsField
  | .integer _ => .isTrue trivial
  | .string _ => inferInstanceAs (Decidable (_ ∧ _))

/-- A constant can come from an origin. -/
def Origin.Admits (o : Origin) (c : Constant) : Prop :=
  o.kind? = some c.kind ∧ c.IsField

/-- A tuple comes from a list of origins, field by field. -/
def Tuple.From (origins : List Origin) (t : Tuple) : Prop :=
  List.Forall₂ Origin.Admits origins t

/-- The columns of a relation. -/
def Relation.origins (r : Relation) : List Origin :=
  (List.range r.arity).map (.column r)

/-- The origin at a position. -/
def originAt (origins : List Origin) (position : Nat) : Origin :=
  (origins[position]?).getD .total

namespace Tuple.From

variable {origins origins' : List Origin} {t u : Tuple}

theorem length_eq (h : t.From origins) : t.length = origins.length :=
  (List.Forall₂.length_eq h).symm

theorem map_kind (h : t.From origins) :
    t.map (fun c => some c.kind) = origins.map Origin.kind? := by
  induction h with
  | nil => rfl
  | cons hc _ ih => rw [List.map_cons, List.map_cons, hc.1, ih]

theorem isField (h : t.From origins) : ∀ c ∈ t, c.IsField := by
  induction h with
  | nil => simp
  | cons hc _ ih => exact List.forall_mem_cons.mpr ⟨hc.2, ih⟩

theorem append (h : t.From origins) (h' : u.From origins') : (t ++ u).From (origins ++ origins') :=
  List.rel_append h h'

theorem exists_getElem? (h : t.From origins) {i : Nat} (hi : i < origins.length) :
    ∃ c, t[i]? = some c ∧ (originAt origins i).Admits c := by
  have hi' : i < t.length := h.length_eq ▸ hi
  refine ⟨t[i], List.getElem?_eq_getElem hi', ?_⟩
  rw [originAt, List.getElem?_eq_getElem hi, Option.getD_some]
  exact List.Forall₂.get h hi hi'

/-- A projection comes from the origins at its positions. -/
theorem project? (h : t.From origins) {positions : List Nat}
    (hpositions : ∀ i ∈ positions, i < origins.length) :
    ∃ u, t.project? positions = some u ∧ u.From (positions.map (originAt origins)) := by
  induction positions with
  | nil => exact ⟨[], rfl, .nil⟩
  | cons i positions ih =>
    obtain ⟨hi, hrest⟩ := List.forall_mem_cons.mp hpositions
    obtain ⟨c, hc, hadmits⟩ := h.exists_getElem? hi
    obtain ⟨u, hu, hfrom⟩ := ih hrest
    rw [Tuple.project?] at hu
    refine ⟨c :: u, ?_, .cons hadmits hfrom⟩
    simp [Tuple.project?, List.mapM_cons, hc, hu]

end Tuple.From

/-! ## Scanned tuples -/

namespace Relation

variable {r : Relation} {kind : Kind} {text : List Char} {c : Constant}

theorem trim_subset (cs : List Char) : Text.trim cs ⊆ cs := by
  intro c hc
  have hback := List.mem_reverse.mp ((List.dropWhile_sublist _).subset (List.mem_reverse.mp hc))
  exact (List.dropWhile_sublist _).subset hback

theorem subset_of_unquote? {inner : List Char} (h : unquote? text = some inner) :
    inner ⊆ text := by
  unfold unquote? at h
  split at h
  · next rest =>
    split at h
    · cases h
      intro c hc
      exact List.mem_cons_of_mem _ (List.dropLast_subset rest hc)
    · cases h
  · cases h

theorem isField_of_readField? (h : readField? kind text = some c) (hcomma : ',' ∉ text)
    (hfeed : '\n' ∉ text) : c.IsField := by
  cases kind with
  | int =>
    obtain ⟨n, -, rfl⟩ := Option.map_eq_some_iff.mp h
    trivial
  | string =>
    obtain ⟨inner, hinner, rfl⟩ := Option.map_eq_some_iff.mp h
    have hsubset := subset_of_unquote? hinner
    show ',' ∉ (String.ofList inner).toList ∧ '\n' ∉ (String.ofList inner).toList
    rw [String.toList_ofList]
    exact ⟨fun hc => hcomma (hsubset hc), fun hc => hfeed (hsubset hc)⟩

theorem isField_of_decodeFields {fault : String → EvalError} {number : Nat} {kinds : List Kind}
    {texts : List (List Char)} {t : Tuple} (hcomma : ∀ text ∈ texts, ',' ∉ text)
    (hfeed : ∀ text ∈ texts, '\n' ∉ text) (h : decodeFields fault number kinds texts = .ok t) :
    ∀ c ∈ t, c.IsField := by
  fun_induction decodeFields fault number kinds texts generalizing t with
  | case1 => cases h
  | case2 n kind kinds text texts c hc ih =>
    obtain ⟨rest, hrest, rfl⟩ := exists_of_map_eq_ok h
    obtain ⟨hcomma, hcommas⟩ := List.forall_mem_cons.mp hcomma
    obtain ⟨hfeed, hfeeds⟩ := List.forall_mem_cons.mp hfeed
    exact List.forall_mem_cons.mpr
      ⟨isField_of_readField? hc hcomma hfeed, ih hcommas hfeeds hrest⟩
  | case3 =>
    cases h
    simp

/-- The fields of a line can stand between commas again. -/
theorem isField_of_decode {row : Nat} {line : List Char} {t : Tuple} (hline : '\n' ∉ line)
    (h : r.decode row line = .ok t) : ∀ c ∈ t, c.IsField := by
  have hchars : ∀ text ∈ splitFields line, ∀ c ∈ text, c ∈ line ∧ c ≠ ',' := by
    intro text htext c hc
    obtain ⟨piece, hpiece, rfl⟩ := List.mem_map.mp htext
    exact of_mem_splitOn hpiece c (trim_subset piece hc)
  simp only [decode] at h
  split at h
  · refine isField_of_decodeFields (fun text htext hc => ?_) (fun text htext hc => ?_) h
    · exact (hchars text htext _ hc).2 rfl
    · exact hline (hchars text htext _ hc).1
  · cases h

/-- **A decoded line comes from the columns of its relation.** -/
theorem from_of_decode {row : Nat} {line : List Char} {t : Tuple} (hline : '\n' ∉ line)
    (h : r.decode row line = .ok t) : t.From r.origins := by
  have hkinds := kinds_of_decode h
  have hfields := isField_of_decode hline h
  have hlength : r.origins.length = t.length := by
    rw [origins, List.length_map, List.length_range, arity, ← hkinds, List.length_map]
  refine List.forall₂_iff_get.mpr ⟨hlength, fun i hi hi' => ⟨?_, hfields _ (List.getElem_mem _)⟩⟩
  have hkind : r.columns[i]? = some t[i].kind := by
    rw [← hkinds, List.getElem?_map, List.getElem?_eq_getElem hi', Option.map_some]
  simpa [origins, Origin.kind?] using hkind

end Relation

end Conjunct
