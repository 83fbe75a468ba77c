import Conjunct.Proofs.Meaning

/-!
# What selections keep and joins match

Selections and joins compare fields by position. Both can be said without positions, in terms of
what the tuples give the variables of their schemas.

**Theorem (`Machine.select_keeps_instances`).** A selection cannot be made exactly if one of its
conditions has a variable of the schema and another variable that does not occur there. If it can be
made, it keeps the tuples that are instances of the schema under a valuation which satisfies the
conditions whose variables all occur in the schema.

**Theorem (`Machine.join_matches`).** A join pairs two tuples exactly if they agree on all shared
variables and satisfy the conditions that relate the two schemas. So it does not matter in which
direction a condition is written, nor in which order the conditions are given, nor how often.

A condition whose variables both occur on both sides can be resolved in two ways, which look at
different fields. The way taken does not show, since the shared variables have to agree anyhow: what
a pair of tuples gives the variables is then a single valuation.
-/

namespace Conjunct

/-! ## Selections -/

/-- A comparison straddles a schema if one of its variables occurs there and another does not. -/
def Comparison.Straddles (c : Comparison) (schema : Atom) : Prop :=
  ∃ v ∈ c.vars, ∃ w ∈ c.vars, v ∈ schema.vars ∧ w ∉ schema.vars

/-- Some valuation turns the schema into the tuple and satisfies the comparisons without variables
outside the schema. A comparison of two constants is one of these. -/
def Atom.IsInstance (schema : Atom) (cs : List Comparison) (t : Tuple) : Prop :=
  ∃ ν, schema.value ν = t ∧
    ∀ c ∈ cs, (∀ v ∈ c.vars, v ∈ schema.vars) → c.holdsIn ν = true

namespace Plan

variable {schema : Atom} {c : Comparison} {cs : List Comparison}

/-- A comparison has all its variables in a schema, or none of them, or it straddles the schema. -/
theorem straddles_cases (schema : Atom) (c : Comparison) :
    (∀ v ∈ c.vars, v ∈ schema.vars) ∨ (c.vars ≠ [] ∧ ∀ v ∈ c.vars, v ∉ schema.vars) ∨
      c.Straddles schema := by
  by_cases hall : ∀ v ∈ c.vars, v ∈ schema.vars
  · exact .inl hall
  · push Not at hall
    obtain ⟨w, hw, hout⟩ := hall
    by_cases hnone : ∀ v ∈ c.vars, v ∉ schema.vars
    · exact .inr (.inl ⟨List.ne_nil_of_mem hw, hnone⟩)
    · push Not at hnone
      obtain ⟨v, hv, hin⟩ := hnone
      exact .inr (.inr ⟨v, hv, w, hw, hin, hout⟩)

theorem mentions_eq_false_iff {v : Variable} : schema.mentions v = false ↔ v ∉ schema.vars := by
  rw [← Atom.mentions_iff, Bool.not_eq_true]

/-- A condition without any variable in the schema is passed over. -/
theorem selectionPredicates_cons_of_outside (hne : c.vars ≠ [])
    (hout : ∀ v ∈ c.vars, v ∉ schema.vars) (cs : List Comparison) :
    selectionPredicates schema (c :: cs) = selectionPredicates schema cs := by
  rw [selectionPredicates, if_pos ⟨hne, fun v hv => mentions_eq_false_iff.mpr (hout v hv)⟩]

/-- A condition with all its variables in the schema is resolved. -/
theorem selectionPredicates_cons_of_inside (hin : ∀ v ∈ c.vars, v ∈ schema.vars) :
    ∃ p, ∀ cs, selectionPredicates schema (c :: cs) =
      (selectionPredicates schema cs).map (p :: ·) := by
  obtain ⟨p, hp⟩ := Option.isSome_iff_exists.mp (Predicate.isSome_bind?_iff.mpr hin)
  refine ⟨p, fun cs => ?_⟩
  rw [selectionPredicates, if_neg, hp]
  rintro ⟨hne, hout⟩
  obtain ⟨v, hv⟩ := List.exists_mem_of_ne_nil _ hne
  exact mentions_eq_false_iff.mp (hout v hv) (hin v hv)

/-- A straddling condition is an error. -/
theorem selectionPredicates_cons_of_straddles (h : c.Straddles schema) (cs : List Comparison) :
    selectionPredicates schema (c :: cs) = .error (.termUnresolved c.render schema.render) := by
  obtain ⟨v, hv, w, hw, hin, hout⟩ := h
  have hbind : Predicate.bind? schema c = none := by
    rw [← Option.not_isSome_iff_eq_none, Predicate.isSome_bind?_iff]
    exact fun hall => hout (hall w hw)
  rw [selectionPredicates, if_neg, hbind]
  exact fun hnone => mentions_eq_false_iff.mp (hnone.2 v hv) hin

/-- A selection can be made unless a condition straddles the schema. -/
theorem selectionPredicates_eq_error_iff :
    (∃ e, selectionPredicates schema cs = .error e) ↔ ∃ c ∈ cs, c.Straddles schema := by
  induction cs with
  | nil => simp [selectionPredicates]
  | cons c cs ih =>
    rw [List.exists_mem_cons_iff]
    rcases straddles_cases schema c with hin | ⟨hne, hout⟩ | h
    · have hc : ¬ c.Straddles schema := by
        rintro ⟨v, -, w, hw, -, hnot⟩
        exact hnot (hin w hw)
      obtain ⟨p, hp⟩ := selectionPredicates_cons_of_inside hin
      rw [hp, or_iff_right hc, ← ih]
      cases selectionPredicates schema cs <;> simp [Except.map]
    · have hc : ¬ c.Straddles schema := by
        rintro ⟨v, hv, w, -, hmem, -⟩
        exact hout v hv hmem
      rw [selectionPredicates_cons_of_outside hne hout, or_iff_right hc, ih]
    · exact iff_of_true ⟨_, selectionPredicates_cons_of_straddles h cs⟩ (.inl h)

/-- If no condition straddles the schema, those with all their variables in it are resolved. -/
theorem selectionPredicates_eq_filter (h : ¬ ∃ c ∈ cs, c.Straddles schema) :
    selectionPredicates schema cs =
      selectionPredicates schema (cs.filter fun c => ∀ v ∈ c.vars, v ∈ schema.vars) := by
  induction cs with
  | nil => rfl
  | cons c cs ih =>
    rw [List.exists_mem_cons_iff, not_or] at h
    rcases straddles_cases schema c with hin | ⟨hne, hout⟩ | hc
    · obtain ⟨p, hp⟩ := selectionPredicates_cons_of_inside hin
      rw [List.filter_cons_of_pos (by simpa using hin), hp, hp, ih h.2]
    · have hnot : ¬ ∀ v ∈ c.vars, v ∈ schema.vars := by
        obtain ⟨v, hv⟩ := List.exists_mem_of_ne_nil _ hne
        exact fun hall => hout v hv (hall v hv)
      rw [List.filter_cons_of_neg (by simpa using hnot),
        selectionPredicates_cons_of_outside hne hout, ih h.2]
    · exact absurd hc h.1

end Plan

open Classical in
/-- **A selection keeps the instances of its schema**, in order, and it can be made unless a
condition straddles the schema. -/
theorem Machine.select_keeps_instances {store : Storage} {child : Machine} {ts : List Tuple}
    (hchild : child.yields store = ⟨ts, none⟩) (hwidth : ∀ t ∈ ts, t.length = child.schema.arity)
    (cs : List Comparison) :
    ((∃ e, child.select cs = .error e) ↔ ∃ c ∈ cs, c.Straddles child.schema) ∧
      ∀ m, child.select cs = .ok m →
        (m.collect store).1 = (ts.filter fun t => child.schema.IsInstance cs t, none) := by
  constructor
  · rw [← Plan.selectionPredicates_eq_error_iff, select]
    cases Plan.selectionPredicates child.schema cs <;> simp [Except.map]
  · intro m hm
    obtain ⟨ps, hps, rfl⟩ := exists_of_map_eq_ok hm
    have hnone : ¬ ∃ c ∈ cs, c.Straddles child.schema := by
      rw [← Plan.selectionPredicates_eq_error_iff, hps]
      simp
    obtain ⟨ps', hps', hholds⟩ := @Plan.exists_selectionPredicates child.schema
      (cs.filter fun c => ∀ v ∈ c.vars, v ∈ child.schema.vars)
      fun c hc => of_decide_eq_true (List.mem_filter.mp hc).2
    rw [Plan.selectionPredicates_eq_filter hnone, hps'] at hps
    cases hps
    have hyields : yields store ⟨.select child.plan ps, child.state⟩ =
        Yield.filter (Plan.accepts child.schema ps) ⟨ts, none⟩ := by
      rw [← hchild]
      exact (child.plan.source store).yields_filter _ child.state
    rw [collect_eq_of_yields hyields]
    refine Prod.ext (List.filter_congr fun t ht => ?_) rfl
    rw [Bool.eq_iff_iff, Plan.accepts_iff_exists hholds (hwidth t ht), decide_eq_true_iff]
    simp only [List.mem_filter, decide_eq_true_iff, and_imp, Atom.IsInstance]

/-- An atom with a repeated variable and a constant. -/
def twiceAndOne : Atom :=
  ⟨"R", [.var ⟨"x"⟩, .var ⟨"x"⟩, .const (.integer 1), .var ⟨"y"⟩]⟩

/-- Rows of which the first two are equal in the places of the repeated variable. -/
def twiceAndOneRows : List Tuple :=
  [[.integer 2, .integer 2, .integer 1, .integer 3],
   [.integer 4, .integer 4, .integer 1, .integer 3],
   [.integer 2, .string "2", .integer 1, .integer 3]]

open Classical in
theorem Machine.select_keeps_instances_twiceAndOne :
    (∃ e, (rows twiceAndOne twiceAndOneRows).select [⟨.var ⟨"x"⟩, .lt, .var ⟨"z"⟩⟩] = .error e) ∧
      ∃ m, (rows twiceAndOne twiceAndOneRows).select
          [⟨.var ⟨"x"⟩, .lt, .var ⟨"y"⟩⟩, ⟨.var ⟨"z"⟩, .eq, .var ⟨"w"⟩⟩] = .ok m ∧
        (m.collect Catalog.smallStore).1 = (twiceAndOneRows.filter fun t =>
          twiceAndOne.IsInstance
            [⟨.var ⟨"x"⟩, .lt, .var ⟨"y"⟩⟩, ⟨.var ⟨"z"⟩, .eq, .var ⟨"w"⟩⟩] t, none) ∧
        (m.collect Catalog.smallStore).1 =
          ([[.integer 2, .integer 2, .integer 1, .integer 3]], none) := by
  have hchild : (rows twiceAndOne twiceAndOneRows).yields Catalog.smallStore =
      ⟨twiceAndOneRows, none⟩ := Source.yields_rows _ _
  have hwidth : ∀ t ∈ twiceAndOneRows, t.length = twiceAndOne.arity := by decide
  constructor
  · apply (select_keeps_instances hchild hwidth _).1.mpr
    exact ⟨_, List.mem_singleton_self _, ⟨"x"⟩, by decide, ⟨"z"⟩, by decide, by decide, by decide⟩
  · refine ⟨_, rfl, (select_keeps_instances hchild hwidth _).2 _ rfl, ?_⟩
    apply collect_eq_of_replays (o := ⟨[[.integer 2, .integer 2, .integer 1, .integer 3]], none⟩)
    exact Source.replays_filter (Source.replays_rows twiceAndOneRows) _

/-! ## Joins -/

/-- What a pair of tuples gives the variables of two schemas. Of a variable in both, the outer tuple
decides. -/
def Atom.readPair (outer inner : Atom) (t u : Tuple) : Valuation := fun v =>
  if v ∈ outer.vars then outer.read t v else inner.read u v

/-- A comparison relates two schemas if it is between two variables, of which one occurs in the
outer schema and the other in the inner one. -/
def Comparison.Relates (c : Comparison) (outer inner : Atom) : Prop :=
  ∃ v w, c.left = .var v ∧ c.right = .var w ∧
    (v ∈ outer.vars ∧ w ∈ inner.vars ∨ w ∈ outer.vars ∧ v ∈ inner.vars)

/-- Two tuples agree on the variables that their schemas share, and what they give the variables
satisfies the comparisons that relate the schemas. -/
structure Matches (outer inner : Atom) (cs : List Comparison) (t u : Tuple) : Prop where
  shared : ∀ v ∈ outer.vars, v ∈ inner.vars →
    Comparator.eq.holds (outer.read t v) (inner.read u v) = true
  related : ∀ c ∈ cs, c.Relates outer inner → c.holdsIn (outer.readPair inner t u) = true

section Join

variable {outer inner : Atom} {cs cs' : List Comparison} {t u : Tuple}

theorem Comparison.isSome_bind?_iff_relates {c : Comparison} :
    (JoinCondition.bind? outer inner c).isSome = true ↔ c.Relates outer inner := by
  rw [JoinCondition.isSome_bind?_iff]
  constructor
  · rintro (⟨v, hv, w, hw, hl, hr⟩ | ⟨v, hv, w, hw, hr, hl⟩)
    · exact ⟨v, w, hl, hr, .inl ⟨hv, hw⟩⟩
    · exact ⟨w, v, hl, hr, .inr ⟨hv, hw⟩⟩
  · rintro ⟨v, w, hl, hr, ⟨hv, hw⟩ | ⟨hw, hv⟩⟩
    · exact .inl ⟨v, hv, w, hw, hl, hr⟩
    · exact .inr ⟨w, hw, v, hv, hr, hl⟩

theorem Comparison.relates_converse_iff {c : Comparison} :
    c.converse.Relates outer inner ↔ c.Relates outer inner := by
  constructor
  · rintro ⟨v, w, hl, hr, hvw⟩
    exact ⟨w, v, hr, hl, hvw.symm⟩
  · rintro ⟨v, w, hl, hr, hvw⟩
    exact ⟨w, v, hr, hl, hvw.symm⟩

theorem JoinCondition.positions_of_bind? {c : Comparison} {p : JoinCondition}
    (h : bind? outer inner c = some p) :
    (∃ v, outer.position? v = some p.outer) ∧ ∃ w, inner.position? w = some p.inner := by
  rcases Option.or_eq_some_iff.mp h with h | ⟨_, h⟩
  all_goals
    obtain ⟨-, v, w, -, -, hv, hw⟩ := resolve?_eq_some_iff.mp h
    exact ⟨⟨v, hv⟩, ⟨w, hw⟩⟩

/-- The conditions of a join look at first positions of variables. -/
theorem Plan.positions_of_mem_joinConditions {p : JoinCondition}
    (h : p ∈ joinConditions outer inner cs) :
    (∃ v, outer.position? v = some p.outer) ∧ ∃ w, inner.position? w = some p.inner := by
  rcases List.mem_append.mp h with h | h
  · obtain ⟨c, -, hc⟩ := List.mem_filterMap.mp h
    exact JoinCondition.positions_of_bind? hc
  · obtain ⟨v, -, hv⟩ := List.mem_filterMap.mp h
    obtain ⟨-, x, y, -, -, hx, hy⟩ := JoinCondition.resolve?_eq_some_iff.mp hv
    exact ⟨⟨x, hx⟩, ⟨y, hy⟩⟩

/-- So they cannot tell tuples from the values of the schemas under what the tuples give the
variables, whether or not the tuples fit the schemas. -/
theorem Plan.pairs_value_read (ht : t.length = outer.arity) (hu : u.length = inner.arity) :
    pairs (joinConditions outer inner cs) (outer.value (outer.read t))
        (inner.value (inner.read u)) = pairs (joinConditions outer inner cs) t u := by
  rw [pairs, pairs, Bool.eq_iff_iff, List.all_eq_true, List.all_eq_true]
  refine forall₂_congr fun p hp => ?_
  obtain ⟨⟨v, hv⟩, ⟨w, hw⟩⟩ := positions_of_mem_joinConditions hp
  rw [JoinCondition.holds, JoinCondition.holds, Atom.getElem?_value_read ht hv,
    Atom.getElem?_value_read hu hw]

/-- **What a join pairs** are the tuples that match. -/
theorem Plan.pairs_iff_matches (ht : t.length = outer.arity) (hu : u.length = inner.arity) :
    pairs (joinConditions outer inner cs) t u = true ↔ Matches outer inner cs t u := by
  rw [← pairs_value_read ht hu, pairs_iff_exists]
  -- A common valuation of the two tuples and what the pair gives the variables agree wherever a
  -- comparison looks.
  have hagree : ∀ ξ : Valuation, (∀ v ∈ outer.vars, outer.read t v = ξ v) →
      (∀ v ∈ inner.vars, inner.read u v = ξ v) → ∀ c : Comparison, c.Relates outer inner →
        c.holdsIn (outer.readPair inner t u) = c.holdsIn ξ := by
    rintro ξ ho hi c ⟨v, w, hl, hr, hvw⟩
    have hread : ∀ x, x ∈ outer.vars ∨ x ∈ inner.vars → outer.readPair inner t u x = ξ x := by
      intro x hx
      unfold Atom.readPair
      split
      · next hmem => exact ho x hmem
      · next hmem => exact hi x (hx.resolve_left hmem)
    refine Comparison.holdsIn_congr fun x hx => hread x ?_
    rcases Comparison.mem_vars.mp hx with hx | hx
    · cases hl.symm.trans hx
      exact hvw.imp And.left And.right
    · cases hr.symm.trans hx
      exact hvw.symm.imp And.left And.right
  constructor
  · rintro ⟨ξ, ho, hi, hcs⟩
    constructor
    case shared =>
      intro v hv hw
      rw [Comparator.eq_holds_iff, ho v hv, hi v hw]
    case related =>
      intro c hc hrelates
      rw [hagree ξ ho hi c hrelates]
      exact hcs c hc (Comparison.isSome_bind?_iff_relates.mpr hrelates)
  · rintro ⟨hshared, hrelated⟩
    have ho : ∀ v ∈ outer.vars, outer.read t v = outer.readPair inner t u v :=
      fun v hv => (if_pos hv).symm
    have hi : ∀ v ∈ inner.vars, inner.read u v = outer.readPair inner t u v := by
      intro v hv
      unfold Atom.readPair
      split
      · next hmem => exact (Comparator.eq_holds_iff.mp (hshared v hmem hv)).symm
      · rfl
    exact ⟨_, ho, hi, fun c hc hsome =>
      hrelated c hc (Comparison.isSome_bind?_iff_relates.mp hsome)⟩

/-- Matching does not depend on how the comparisons are written. -/
theorem Matches.congr (h : ∀ c, c ∈ cs ∨ c.converse ∈ cs ↔ c ∈ cs' ∨ c.converse ∈ cs')
    (hmatch : Matches outer inner cs t u) : Matches outer inner cs' t u := by
  refine ⟨hmatch.shared, fun c hc hrelates => ?_⟩
  rcases (h c).mpr (.inl hc) with hmem | hmem
  · exact hmatch.related c hmem hrelates
  · rw [← Comparison.holdsIn_converse]
    exact hmatch.related _ hmem (Comparison.relates_converse_iff.mpr hrelates)

theorem matches_iff_of_same (h : ∀ c, c ∈ cs ∨ c.converse ∈ cs ↔ c ∈ cs' ∨ c.converse ∈ cs') :
    Matches outer inner cs t u ↔ Matches outer inner cs' t u :=
  ⟨.congr h, .congr fun c => (h c).symm⟩

end Join

namespace Machine

variable {store : Storage} {outer inner : Machine} {ts us : List Tuple}

open Classical in
/-- **A join emits the matching pairs**, for each outer tuple in turn, and what it emits does not
depend on how its conditions are written. -/
theorem join_matches (houter : outer.Replays store ⟨ts, none⟩)
    (hinner : inner.Replays store ⟨us, none⟩) (hts : ∀ t ∈ ts, t.length = outer.schema.arity)
    (hus : ∀ u ∈ us, u.length = inner.schema.arity) (cs : List Comparison) :
    ((outer.join inner cs).collect store).1 =
        (ts.flatMap fun t =>
          (us.filter fun u => Matches outer.schema inner.schema cs t u).map (t ++ ·), none) ∧
      ∀ cs', (∀ c, c ∈ cs ∨ c.converse ∈ cs ↔ c ∈ cs' ∨ c.converse ∈ cs') →
        ((outer.join inner cs').collect store).1 = ((outer.join inner cs).collect store).1 := by
  have hcollect : ∀ cs, ((outer.join inner cs).collect store).1 =
      (ts.flatMap fun t =>
        (us.filter fun u => Matches outer.schema inner.schema cs t u).map (t ++ ·), none) := by
    intro cs
    have hjoin : (outer.join inner cs).Replays store (Yield.join
        (Plan.pairs (Plan.joinConditions outer.schema inner.schema cs)) ⟨ts, none⟩ ⟨us, none⟩) :=
      Source.replays_join houter hinner _
    rw [Yield.join_eq_flatMap _ _ _ rfl] at hjoin
    refine (collect_eq_of_replays hjoin).trans (Prod.ext (List.flatMap_congr fun t ht => ?_) rfl)
    refine congrArg (List.map (t ++ ·)) (List.filter_congr fun u hu => ?_)
    rw [Bool.eq_iff_iff, Plan.pairs_iff_matches (hts t ht) (hus u hu), decide_eq_true_iff]
  refine ⟨hcollect cs, fun cs' h => ?_⟩
  simp only [hcollect, matches_iff_of_same h]

/-- A pair in both orders. -/
def bothOrders : List Tuple :=
  [[.integer 1, .integer 2], [.integer 2, .integer 1]]

/-- The pair in both orders, as rows for two variables. -/
def ordersOf (v w : Variable) : Machine :=
  rows ⟨"R", [.var v, .var w]⟩ bothOrders

theorem join_matches_bothOrders :
    (((ordersOf ⟨"x"⟩ ⟨"y"⟩).join (ordersOf ⟨"y"⟩ ⟨"x"⟩)
          [⟨.var ⟨"y"⟩, .gt, .var ⟨"x"⟩⟩, ⟨.var ⟨"x"⟩, .lt, .var ⟨"y"⟩⟩]).collect
        Catalog.smallStore).1 =
      (((ordersOf ⟨"x"⟩ ⟨"y"⟩).join (ordersOf ⟨"y"⟩ ⟨"x"⟩)
          [⟨.var ⟨"x"⟩, .lt, .var ⟨"y"⟩⟩]).collect Catalog.smallStore).1 ∧
    (((ordersOf ⟨"x"⟩ ⟨"y"⟩).join (ordersOf ⟨"y"⟩ ⟨"x"⟩)
          [⟨.var ⟨"x"⟩, .lt, .var ⟨"y"⟩⟩]).collect Catalog.smallStore).1 =
      ([[.integer 1, .integer 2, .integer 2, .integer 1]], none) := by
  have hrows : ∀ v w, (ordersOf v w).Replays Catalog.smallStore ⟨bothOrders, none⟩ :=
    fun _ _ => Source.replays_rows _
  have hwidth : ∀ v w, ∀ t ∈ bothOrders, t.length = (ordersOf v w).schema.arity := by
    simp [bothOrders, ordersOf, rows, schema, Plan.schema, Atom.arity]
  constructor
  · refine (join_matches (hrows _ _) (hrows _ _) (hwidth _ _) (hwidth _ _) _).2 _ fun c => ?_
    have hmirror : (⟨.var ⟨"y"⟩, .gt, .var ⟨"x"⟩⟩ : Comparison) =
        Comparison.converse ⟨.var ⟨"x"⟩, .lt, .var ⟨"y"⟩⟩ := rfl
    have hswap : ∀ d : Comparison, c.converse = d ↔ c = d.converse := fun d =>
      ⟨fun h => by rw [← h, c.converse_converse], fun h => by rw [h, d.converse_converse]⟩
    simp only [hmirror, List.mem_cons, List.not_mem_nil, or_false, hswap,
      Comparison.converse_converse]
    tauto
  · apply collect_eq_of_replays (o := ⟨[[.integer 1, .integer 2, .integer 2, .integer 1]], none⟩)
    exact Source.replays_join (hrows _ _) (hrows _ _) _

end Machine

end Conjunct
