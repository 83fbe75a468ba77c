import Conjunct.Plan.Outline
import Conjunct.Proofs.Rescan
import Conjunct.Proofs.Validity

/-!
# Labels

The operators of a plan are labelled with texts of the query.

**Theorem (`Query.labelled_of_plan`).** If no string in a well-formed query has a line feed, then no
label in its plan has one, and each label begins and ends with a character that is not blank.

**Theorem (`Query.oneLine_render_iff`).** The text of a well-formed query is one line if and only if
no string in it has a line feed.

Names, integers and comparators have no line feed in them, and strings are written as they are. The
terms of a plan are terms of the query: a selection decides some comparisons of the query, and so
does a join, which may also turn them around and adds the equality of a variable with itself. All
this goes up from the leaves of the plan (`Query.Inherited`).
-/

namespace Conjunct

open Text (Edged)

/-! ## One line -/

namespace Text

/-- A text without a line feed. -/
def OneLine (text : String) : Prop :=
  '\n' ∉ text.toList

instance : DecidablePred OneLine := fun text => inferInstanceAs (Decidable ('\n' ∉ text.toList))

variable {a b sep : String} {texts : List String}

theorem oneLine_append : OneLine (a ++ b) ↔ OneLine a ∧ OneLine b := by
  simp [OneLine]

theorem oneLine_joined (hsep : OneLine sep) :
    OneLine (joined sep texts) ↔ ∀ text ∈ texts, OneLine text := by
  fun_induction joined sep texts with
  | case1 => simp [OneLine]
  | case2 text => simp
  | case3 text next rest ih => simp [oneLine_append, ih, hsep]

instance : DecidablePred Edged := fun cs =>
  decidable_of_iff (cs.head?.any (!isBlank ·) = true ∧ cs.getLast?.any (!isBlank ·) = true) <| by
    simp [Edged, Option.any_eq_true]

/-- A text that is a line: it has no line feed, and blanks at neither end. -/
structure IsLine (text : String) : Prop where
  edged : Edged text.toList
  oneLine : OneLine text

instance : DecidablePred IsLine := fun text =>
  decidable_of_iff (Edged text.toList ∧ OneLine text)
    ⟨fun ⟨edged, oneLine⟩ => ⟨edged, oneLine⟩, fun ⟨edged, oneLine⟩ => ⟨edged, oneLine⟩⟩

/-- Between two lines there may be any text that is one line. -/
theorem IsLine.append (ha : IsLine a) (hb : IsLine b) {mid : String} (hmid : OneLine mid) :
    IsLine (a ++ mid ++ b) := by
  constructor
  · rw [String.toList_append, String.toList_append, List.append_assoc]
    exact ha.edged.append hb.edged mid.toList
  · rw [oneLine_append, oneLine_append]
    exact ⟨⟨ha.oneLine, hmid⟩, hb.oneLine⟩

theorem isLine_joined (hne : texts ≠ []) (hsep : OneLine sep) (h : ∀ text ∈ texts, IsLine text) :
    IsLine (joined sep texts) :=
  ⟨edged_joined hne fun text htext => (h text htext).edged,
    (oneLine_joined hsep).mpr fun text htext => (h text htext).oneLine⟩

end Text

/-! ## Terms -/

theorem IsIdentifier.isLine {s : String} (h : IsIdentifier s) : Text.IsLine s := by
  obtain ⟨c, cs, hs, hc, hcs⟩ := h
  have hchars : ∀ d ∈ s.toList, Grammar.isNameChar d = true := by
    rw [hs]
    exact List.forall_mem_cons.mpr ⟨Grammar.isNameChar_of_isNameStart hc, hcs⟩
  constructor
  · apply Edged.of_forall (by simp [hs])
    intro d hd
    rcases Bool.or_eq_true_iff.mp (hchars d hd) with hstart | hdigit
    · exact Grammar.isBlank_of_isNameStart hstart
    · exact isBlank_of_isDigit hdigit
  · intro hfeed
    exact absurd (hchars _ hfeed) (by decide)

/-- The strings in a term: the term itself, if it is a string. -/
def Term.strings : Term → List String
  | .const (.string s) => [s]
  | _ => []

theorem Term.oneLine_render_iff {t : Term} (h : t.WellFormed) :
    Text.OneLine t.render ↔ ∀ s ∈ t.strings, Text.OneLine s := by
  cases t with
  | var v => simpa [render, strings] using h.isLine.oneLine
  | const c =>
    cases c with
    | integer n =>
      have hone : Text.OneLine (String.ofList n.render) := by
        intro hfeed
        rw [String.toList_ofList] at hfeed
        rcases Integer.mem_render hfeed with heq | hdigit
        · exact absurd heq (by decide)
        · exact absurd hdigit (by decide)
      simpa [render, strings, Constant.render] using hone
    | string s =>
      have hquote : Text.OneLine "'" := by decide
      simp [render, strings, Constant.render, Text.oneLine_append, hquote]

/-- A well-formed term whose text is one line. -/
structure Term.Plain (t : Term) : Prop where
  wellFormed : t.WellFormed
  oneLine : Text.OneLine t.render

theorem Term.Plain.isLine_render {t : Term} (h : t.Plain) : Text.IsLine t.render := by
  refine ⟨?_, h.oneLine⟩
  cases t with
  | var v => exact h.wellFormed.isLine.edged
  | const c => exact c.edged_render

theorem Term.oneLine_renderAll {sep : String} (hsep : Text.OneLine sep) {ts : List Term} :
    Text.OneLine (renderAll sep ts) ↔ ∀ t ∈ ts, Text.OneLine t.render := by
  rw [renderAll, Text.oneLine_joined hsep, List.forall_mem_map]

/-! ## Atoms and comparisons -/

/-- An atom with a name that is a line and with plain terms. -/
structure Atom.Plain (a : Atom) : Prop where
  relation : Text.IsLine a.relation
  terms : ∀ t ∈ a.terms, t.Plain

structure Comparison.Plain (c : Comparison) : Prop where
  left : c.left.Plain
  right : c.right.Plain

theorem Atom.oneLine_render_iff {a : Atom} (h : Text.OneLine a.relation) :
    Text.OneLine a.render ↔ ∀ t ∈ a.terms, Text.OneLine t.render := by
  have hopen : Text.OneLine "(" := by decide
  have hclose : Text.OneLine ")" := by decide
  rw [render, Text.oneLine_append, Text.oneLine_append, Text.oneLine_append,
    Term.oneLine_renderAll (by decide)]
  simp [h, hopen, hclose]

theorem Atom.Plain.isLine_render {a : Atom} (h : a.Plain) : Text.IsLine a.render := by
  have hterms : Text.OneLine (Term.renderAll ", " a.terms) :=
    (Term.oneLine_renderAll (by decide)).mpr fun t ht => (h.terms t ht).oneLine
  have hmid : Text.OneLine ("(" ++ Term.renderAll ", " a.terms) :=
    Text.oneLine_append.mpr ⟨by decide, hterms⟩
  have hsplit : a.render = a.relation ++ ("(" ++ Term.renderAll ", " a.terms) ++ ")" := by
    simp [render, String.append_assoc]
  rw [hsplit]
  exact h.relation.append (by decide) hmid

theorem Comparator.oneLine_symbol (op : Comparator) : Text.OneLine op.symbol := by
  cases op <;> decide

theorem Comparison.oneLine_render_iff (c : Comparison) :
    Text.OneLine c.render ↔ Text.OneLine c.left.render ∧ Text.OneLine c.right.render := by
  have hspace : Text.OneLine " " := by decide
  simp [render, Text.oneLine_append, hspace, c.op.oneLine_symbol]

theorem Comparison.Plain.isLine_render {c : Comparison} (h : c.Plain) : Text.IsLine c.render := by
  have hmid : Text.OneLine (" " ++ c.op.symbol ++ " ") := by
    have hspace : Text.OneLine " " := by decide
    simp [Text.oneLine_append, hspace, c.op.oneLine_symbol]
  have hsplit : c.render = c.left.render ++ (" " ++ c.op.symbol ++ " ") ++ c.right.render := by
    simp [render, String.append_assoc]
  rw [hsplit]
  exact h.left.isLine_render.append h.right.isLine_render hmid

theorem Comparison.Plain.converse {c : Comparison} (h : c.Plain) : c.converse.Plain :=
  ⟨h.right, h.left⟩

/-! ## Labels of operators -/

namespace Plan

/-- The labels of a plan's operators are lines. -/
def Labelled (p : Plan) : Prop :=
  ∀ depth, ∀ entry ∈ p.outlineFrom depth, Text.IsLine entry.2

/-- Moreover, the terms of the plan's schema are plain. -/
structure Plain (p : Plan) : Prop where
  schema : p.schema.Plain
  labelled : p.Labelled

/-- A plan is labelled if its own label is a line and so are those below it. -/
theorem labelled_of_below {p : Plan} {below : Nat → List (Nat × String)}
    (hlist : ∀ depth, p.outlineFrom depth = (depth, p.label) :: below depth)
    (hlabel : Text.IsLine p.label) (hbelow : ∀ depth, ∀ entry ∈ below depth, Text.IsLine entry.2) :
    p.Labelled := by
  intro depth
  rw [hlist]
  exact List.forall_mem_cons.mpr ⟨hlabel, hbelow depth⟩

theorem isLine_bracketed {items : List String} (h : ∀ item ∈ items, Text.OneLine item) :
    Text.IsLine (bracketed items) := by
  have hopen : Text.IsLine "[" := by decide
  exact hopen.append (by decide) ((Text.oneLine_joined (by decide)).mpr h)

variable {child outer inner : Plan} {relation : Relation} {path : Path} {atom : Atom}

theorem Plain.scan (h : atom.Plain) : (Plan.scan relation path atom).Plain := by
  have hword : Text.IsLine "Scan" := by decide
  have hlabel : Text.IsLine ("Scan" ++ " " ++ atom.render) :=
    hword.append h.isLine_render (by decide)
  refine ⟨h, labelled_of_below (fun _ => rfl) hlabel fun _ => ?_⟩
  exact List.forall_mem_nil _

theorem isLine_label_select {predicates : List Predicate} (h : child.schema.Plain)
    (hpredicates : ∀ p ∈ predicates, p.source.Plain) :
    Text.IsLine (Plan.select child predicates).label := by
  have hword : Text.IsLine "Select" := by decide
  have hspace : Text.OneLine " " := by decide
  have hfront : Text.IsLine ("Select" ++ " " ++ child.schema.render) :=
    hword.append h.isLine_render hspace
  cases predicates with
  | nil => exact hfront
  | cons p ps =>
    have hitems : Text.IsLine (bracketed ((p :: ps).map Predicate.render)) := by
      apply isLine_bracketed
      intro item hitem
      obtain ⟨p', hp', rfl⟩ := List.mem_map.mp hitem
      exact (hpredicates p' hp').isLine_render.oneLine
    exact hfront.append hitems hspace

theorem Plain.select (h : child.Plain) {predicates : List Predicate}
    (hpredicates : ∀ p ∈ predicates, p.source.Plain) :
    (Plan.select child predicates).Plain := by
  have hlabel := isLine_label_select h.schema hpredicates
  exact ⟨h.schema, labelled_of_below (fun _ => rfl) hlabel fun depth => h.labelled (depth + 1)⟩

theorem isLine_label_join {conditions : List JoinCondition}
    (hconditions : ∀ c ∈ conditions, c.source.Plain) :
    Text.IsLine (Plan.join outer inner conditions).label := by
  cases conditions with
  | nil =>
    show Text.IsLine "Join cartesian"
    decide
  | cons c cs =>
    have hitem : ∀ text ∈ (c :: cs).map JoinCondition.render, Text.IsLine text := by
      intro text htext
      obtain ⟨c', hc', rfl⟩ := List.mem_map.mp htext
      exact (hconditions c' hc').isLine_render
    have hitems : Text.IsLine (Text.joined " and " ((c :: cs).map JoinCondition.render)) :=
      Text.isLine_joined (by simp) (by decide) hitem
    have hword : Text.IsLine "Join" := by decide
    have hon : Text.OneLine " on " := by decide
    exact hword.append hitems hon

theorem Plain.join (houter : outer.Plain) (hinner : inner.Plain)
    {conditions : List JoinCondition} (hconditions : ∀ c ∈ conditions, c.source.Plain) :
    (Plan.join outer inner conditions).Plain := by
  have hschema : (Plan.join outer inner conditions).schema.Plain := by
    constructor
    · show Text.IsLine "Join"
      decide
    · intro t ht
      exact (List.mem_append.mp ht).elim (houter.schema.terms t) (hinner.schema.terms t)
  refine ⟨hschema, labelled_of_below (fun _ => rfl) (isLine_label_join hconditions) fun depth => ?_⟩
  exact List.forall_mem_append.mpr
    ⟨houter.labelled (depth + 1), hinner.labelled (depth + 1)⟩

theorem isLine_bracketed_names {targets : List (Variable × Nat)}
    (h : ∀ target ∈ targets, IsIdentifier target.1.name) :
    Text.IsLine (bracketed (targets.map (·.1.name))) := by
  apply isLine_bracketed
  intro item hitem
  obtain ⟨target, htarget, rfl⟩ := List.mem_map.mp hitem
  exact (h target htarget).isLine.oneLine

theorem Plain.project (h : child.Plain) {targets : List (Variable × Nat)}
    (htargets : ∀ target ∈ targets, IsIdentifier target.1.name) :
    (Plan.project child targets).Plain := by
  have hschema : (Plan.project child targets).schema.Plain := by
    constructor
    · show Text.IsLine "Project"
      decide
    · intro t ht
      obtain ⟨target, htarget, rfl⟩ := List.mem_map.mp ht
      exact ⟨htargets target htarget, (htargets target htarget).isLine.oneLine⟩
  have hword : Text.IsLine "Project" := by decide
  have hspace : Text.OneLine " " := by decide
  have hlabel : Text.IsLine (Plan.project child targets).label :=
    hword.append (isLine_bracketed_names htargets) hspace
  exact ⟨hschema, labelled_of_below (fun _ => rfl) hlabel fun depth => h.labelled (depth + 1)⟩

theorem isLine_label_sum (child : Plan) {spec : SumSpec}
    (haggregate : Text.IsLine spec.aggregate.render)
    (hgroup : ∀ target ∈ spec.group, IsIdentifier target.1.name) :
    Text.IsLine (Plan.sum child spec).label := by
  obtain ⟨aggregate, group, factors⟩ := spec
  have hword : Text.IsLine "Sum" := by decide
  have hfront : Text.IsLine ("Sum" ++ " " ++ aggregate.render) :=
    hword.append haggregate (by decide)
  have hby : Text.OneLine " group by " := by decide
  cases group with
  | nil => exact hfront
  | cons target group => exact hfront.append (isLine_bracketed_names hgroup) hby

theorem Plain.sum (h : child.Plain) {spec : SumSpec}
    (haggregate : Text.IsLine spec.aggregate.render)
    (hgroup : ∀ target ∈ spec.group, IsIdentifier target.1.name) :
    (Plan.sum child spec).Labelled :=
  labelled_of_below (fun _ => rfl) (isLine_label_sum child haggregate hgroup)
    fun depth => h.labelled (depth + 1)

/-! ## What is resolved -/

theorem source_of_selectionPredicates {schema : Atom} {cs : List Comparison} {ps : List Predicate}
    (h : selectionPredicates schema cs = .ok ps) : ∀ p ∈ ps, p.source ∈ cs := by
  induction cs generalizing ps with
  | nil =>
    cases h
    simp
  | cons c cs ih =>
    rw [selectionPredicates] at h
    split at h
    · exact fun p hp => List.mem_cons_of_mem c (ih h p hp)
    · split at h
      · cases h
      · next p hbind =>
        obtain ⟨ps', hps', rfl⟩ := exists_of_map_eq_ok h
        refine List.forall_mem_cons.mpr ⟨?_, fun p hp => List.mem_cons_of_mem c (ih hps' p hp)⟩
        rw [(Predicate.bind?_eq_some_iff.mp hbind).1]
        exact List.mem_cons_self

/-- A join compares what it is given, perhaps turned around, or a variable with itself. -/
theorem source_of_mem_joinConditions {outer inner : Atom} {cs : List Comparison} {p : JoinCondition}
    (h : p ∈ joinConditions outer inner cs) :
    (∃ c ∈ cs, p.source = c ∨ p.source = c.converse) ∨
      ∃ v ∈ outer.vars, p.source = ⟨.var v, .eq, .var v⟩ := by
  rcases List.mem_append.mp h with h | h
  · obtain ⟨c, hc, hbind⟩ := List.mem_filterMap.mp h
    refine .inl ⟨c, hc, ?_⟩
    rcases Option.or_eq_some_iff.mp hbind with h | ⟨-, h⟩
    · exact .inl (JoinCondition.resolve?_eq_some_iff.mp h).1
    · exact .inr (JoinCondition.resolve?_eq_some_iff.mp h).1
  · obtain ⟨v, hv, hshared⟩ := List.mem_filterMap.mp h
    exact .inr ⟨v, hv, (JoinCondition.resolve?_eq_some_iff.mp hshared).1⟩

/-- A variable that has been located is a term of the schema, and thus named by an identifier. -/
theorem Plain.isIdentifier_of_locate (h : child.Plain) {vs : List Variable}
    {ps : List (Variable × Nat)} (hlocate : vs.mapM (locate child.schema) = .ok ps) :
    ∀ p ∈ ps, IsIdentifier p.1.name := by
  intro p hp
  obtain ⟨v, -, hv⟩ := exists_of_mem_mapM hlocate p hp
  obtain ⟨rfl, hposition⟩ := position?_of_locate hv
  have hterm := List.mem_of_getElem? (Atom.terms_of_position? hposition)
  exact (h.schema.terms _ hterm).wellFormed

end Plan

/-! ## Strings of queries -/

/-- The strings in a literal. -/
def Literal.strings : Literal → List String
  | .atom a => a.terms.flatMap Term.strings
  | .comparison c => c.left.strings ++ c.right.strings

theorem Literal.oneLine_render_iff {l : Literal} (h : l.WellFormed) :
    Text.OneLine l.render ↔ ∀ s ∈ l.strings, Text.OneLine s := by
  cases l with
  | atom a =>
    have hterm : ∀ t ∈ a.terms, (Text.OneLine t.render ↔ ∀ s ∈ t.strings, Text.OneLine s) :=
      fun t ht => Term.oneLine_render_iff (h.terms t ht)
    rw [render, Atom.oneLine_render_iff h.relation.isLine.oneLine, strings, List.forall_mem_flatMap]
    exact forall₂_congr hterm
  | comparison c =>
    rw [render, Comparison.oneLine_render_iff, Term.oneLine_render_iff h.left,
      Term.oneLine_render_iff h.right, strings, List.forall_mem_append]

theorem Aggregate.WellFormed.isLine_render {s : Aggregate} (h : s.WellFormed) :
    Text.IsLine s.render := by
  have hfactor : ∀ t ∈ s.factors, Text.OneLine t.render := by
    intro t ht
    have hnone : t.strings = [] := by
      have hno := h.no_string t ht
      cases t with
      | var v => rfl
      | const c =>
        cases c with
        | integer n => rfl
        | string s => cases hno
    rw [Term.oneLine_render_iff (h.factors t ht), hnone]
    simp
  have hopen : Text.IsLine "SUM(" := by decide
  exact hopen.append (by decide) ((Term.oneLine_renderAll (by decide)).mpr hfactor)

namespace Query

variable {store : Storage} {catalog : Catalog} {q : Query} {root : Machine}

/-- The strings in a query. The head has none, as a string cannot be summed. -/
def strings (q : Query) : List String :=
  q.body.flatMap Literal.strings

theorem isLine_render_head (h : q.WellFormed) : Text.IsLine q.head.render := by
  have hitems : ∀ item ∈ q.head.outputs.map Variable.name ++
      (q.head.sum?.map Aggregate.render).toList, Text.OneLine item := by
    intro item hitem
    rcases List.mem_append.mp hitem with hitem | hitem
    · obtain ⟨v, hv, rfl⟩ := List.mem_map.mp hitem
      exact (h.outputs v hv).isLine.oneLine
    · obtain ⟨s, hs, rfl⟩ := Option.map_eq_some_iff.mp (Option.mem_toList.mp hitem)
      exact (h.sum s hs).isLine_render.oneLine
  have hcomma : Text.OneLine ", " := by decide
  have hjoined := (Text.oneLine_joined hcomma).mpr hitems
  have hsplit : q.head.render = q.head.name ++ ("(" ++ Text.joined ", " (q.head.outputs.map
      Variable.name ++ (q.head.sum?.map Aggregate.render).toList)) ++ ")" := by
    simp [Head.render, String.append_assoc]
  rw [hsplit]
  exact h.name.isLine.append (by decide) (Text.oneLine_append.mpr ⟨by decide, hjoined⟩)

/-- **The text of a query is one line** if and only if no string in it has a line feed. -/
theorem oneLine_render_iff (h : q.WellFormed) :
    Text.OneLine q.render ↔ ∀ s ∈ q.strings, Text.OneLine s := by
  have hmark : Text.OneLine " :- " := by decide
  have hliteral : ∀ l ∈ q.body, (Text.OneLine l.render ↔ ∀ s ∈ l.strings, Text.OneLine s) :=
    fun l hl => Literal.oneLine_render_iff (h.body l hl)
  rw [render, Text.oneLine_append, Text.oneLine_append, Text.oneLine_joined (by decide), strings,
    List.forall_mem_flatMap, List.forall_mem_map]
  simp only [(isLine_render_head h).oneLine, hmark, true_and]
  exact forall₂_congr hliteral

/-! ## Labels of plans -/

/-- A term of the body is plain if no string in the query has a line feed. -/
theorem plain_of_mem_body (hone : ∀ s ∈ q.strings, Text.OneLine s) {t : Term} {l : Literal}
    (hl : l ∈ q.body) (ht : t.WellFormed) (hstrings : t.strings ⊆ l.strings) : t.Plain := by
  refine ⟨ht, (Term.oneLine_render_iff ht).mpr fun s hs => hone s ?_⟩
  exact List.mem_flatMap.mpr ⟨l, hl, hstrings hs⟩

theorem plain_of_mem_atoms (h : q.WellFormed) (hone : ∀ s ∈ q.strings, Text.OneLine s) {a : Atom}
    (ha : a ∈ q.atoms) : a.Plain := by
  have hl := mem_atoms.mp ha
  have hatom : a.WellFormed := h.body _ hl
  refine ⟨hatom.relation.isLine, fun t ht => ?_⟩
  exact plain_of_mem_body hone hl (hatom.terms t ht) fun s hs => List.mem_flatMap.mpr ⟨t, ht, hs⟩

theorem plain_of_mem_comparisons (h : q.WellFormed) (hone : ∀ s ∈ q.strings, Text.OneLine s)
    {c : Comparison} (hc : c ∈ q.comparisons) : c.Plain := by
  have hl := mem_comparisons.mp hc
  have hcomparison : c.WellFormed := h.body _ hl
  exact ⟨plain_of_mem_body hone hl hcomparison.left (List.subset_append_left _ _),
    plain_of_mem_body hone hl hcomparison.right (List.subset_append_right _ _)⟩

theorem isLine_render (h : q.WellFormed) (hone : ∀ s ∈ q.strings, Text.OneLine s) :
    Text.IsLine q.render := by
  have hliteral : ∀ text ∈ q.body.map Literal.render, Text.IsLine text := by
    intro text htext
    obtain ⟨l, hl, rfl⟩ := List.mem_map.mp htext
    cases l with
    | atom a => exact (plain_of_mem_atoms h hone (mem_atoms.mpr hl)).isLine_render
    | comparison c => exact (plain_of_mem_comparisons h hone (mem_comparisons.mpr hl)).isLine_render
  have hbody : Text.IsLine (Text.joined ", " (q.body.map Literal.render)) :=
    Text.isLine_joined (by simpa using h.body_ne_nil) (by decide) hliteral
  exact (isLine_render_head h).append hbody (by decide)

/-- **The labels in the plan of a query are lines** if no string in the query has a line feed. -/
theorem labelled_of_plan (h : q.WellFormed) (hone : ∀ s ∈ q.strings, Text.OneLine s)
    (hplan : q.plan store catalog = .ok root) : root.plan.Labelled := by
  have hfault := fault?_of_plan hplan
  have hinherited : Inherited store catalog q fun _ m => m.plan.Plain := by
    refine .of_operators hfault ?_ ?_ ?_ ?_
    · intro a r m ha _ _ hm
      obtain ⟨s, -, rfl⟩ := exists_of_map_eq_ok hm
      exact .scan (plain_of_mem_atoms h hone ha)
    · intro atoms child cs m hchild hcs hm
      obtain ⟨ps, hps, rfl⟩ := exists_of_map_eq_ok hm
      apply hchild.select
      intro p hp
      exact plain_of_mem_comparisons h hone (hcs (Plan.source_of_selectionPredicates hps p hp))
    · intro atoms child targets m hchild hm
      obtain ⟨ps, hps, rfl⟩ := exists_of_map_eq_ok hm
      exact hchild.project (hchild.isIdentifier_of_locate hps)
    · intro atoms a outer inner cs houter hinner hcs _
      apply houter.join hinner
      intro p hp
      rcases Plan.source_of_mem_joinConditions hp with ⟨c, hc, hp | hp⟩ | ⟨v, hv, hp⟩
      · rw [hp]
        exact plain_of_mem_comparisons h hone (hcs hc)
      · rw [hp]
        exact (plain_of_mem_comparisons h hone (hcs hc)).converse
      -- A variable of both sides is in the schema of the outer one, even if no comparison names it.
      · have hplain := houter.schema.terms _ (Atom.mem_vars.mp hv)
        rw [hp]
        exact ⟨hplain, hplain⟩
  obtain ⟨_, _, joined, -, -, hfinish, -, hjoined⟩ :=
    exists_chain hinherited hfault (opens_of_plan hplan)
  rcases of_finish (hfinish ▸ hplan) with ⟨s, hs, hroot⟩ | ⟨-, hroot⟩
  · obtain ⟨spec, hspec, rfl⟩ := exists_of_map_eq_ok hroot
    obtain ⟨hsame, hgroup, -⟩ := Machine.of_resolveSum hspec
    apply hjoined.sum
    · rw [hsame]
      exact (h.sum s hs).isLine_render
    · exact hjoined.isIdentifier_of_locate hgroup
  · obtain ⟨ps, hps, rfl⟩ := exists_of_map_eq_ok hroot
    exact (hjoined.project (hjoined.isIdentifier_of_locate hps)).labelled

end Query

end Conjunct
