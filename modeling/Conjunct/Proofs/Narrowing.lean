import Conjunct.Proofs.Joining
import Conjunct.Proofs.Matching

/-!
# Projecting below a join

A projection on top of a join can be made on the sides of the join already, as far as the join and
the projection need no more of a side than is kept. Enough is kept if it has every variable that the
projection asks for, every variable that both sides have, and every variable of a condition that
relates the sides (`Suffices`).

The sides then have fewer columns, in any order and perhaps one of them several times, and fewer
rows, since a projection hands out equal rows once. Neither shows:

* Narrowed rows give the variables that are kept what the rows themselves give them, so the same
  pairs match and the projection reads the same values from them (`matches_narrowed_iff`,
  `readPair_narrowed`).
* Equal rows match the same rows. What is seen for the first time is seen for the first time behind
  the first of them, on either side of the nested loop (`matchedRows_narrowed`).

**Theorem (`Machine.project_join_narrowed`).** For rows as long as their schemas, whether or not
they fit them, the projection of a join emits the same rows in the same order whether or not the
sides of the join have been narrowed to what suffices.
-/

namespace Conjunct

/-! ## Reading joined and narrowed rows -/

namespace Atom

/-- A joined tuple gives the variables what the pair gives them. -/
theorem read_append (name : String) {outer inner : Atom} {t : Tuple} (ht : t.length = outer.arity)
    (u : Tuple) : read ⟨name, outer.terms ++ inner.terms⟩ (t ++ u) = outer.readPair inner t u := by
  funext v
  rw [read, readPair, position?_append]
  split
  · next hv =>
    obtain ⟨i, hi⟩ := position?_of_mem hv
    have hlt : i < t.length := ht ▸ lt_arity_of_position? hi
    simp [read, hi, List.getElem?_append_left hlt]
  · next hv =>
    have hnone : outer.position? v = none := by
      rw [← Option.not_isSome_iff_eq_none]
      exact fun hsome => hv (mentions_iff.mp hsome)
    cases hi : inner.position? v <;> simp [read, hnone, hi, ← ht, List.getElem?_append_right]

theorem mem_vars_narrowed {kept : List Variable} {v : Variable} :
    v ∈ (narrowed kept).vars ↔ v ∈ kept :=
  vars_of_terms rfl

/-- A narrowed tuple gives the variables that are kept what the tuple gives them. -/
theorem read_narrow {schema : Atom} {kept : List Variable} {v : Variable} (hv : v ∈ kept)
    (t : Tuple) : (narrowed kept).read (schema.narrow kept t) v = schema.read t v := by
  have hvalue : schema.narrow kept t = (narrowed kept).value (schema.read t) := by
    rw [narrow, value, narrowed, List.map_map]
    rfl
  rw [hvalue, read_value _ (mem_vars_narrowed.mpr hv)]

end Atom

/-! ## What suffices -/

theorem Comparison.relates_comm {c : Comparison} {outer inner : Atom} :
    c.Relates outer inner ↔ c.Relates inner outer := by
  simp only [Relates, and_comm, or_comm]

/-- The variables of a comparison that relates two schemas occur in them. -/
theorem Comparison.Relates.mem {c : Comparison} {outer inner : Atom} (h : c.Relates outer inner) :
    ∀ v ∈ c.vars, v ∈ outer.vars ∨ v ∈ inner.vars :=
  Query.mem_of_isSome_bind? (isSome_bind?_iff_relates.mpr h)

/-- Some variables of one side of a join are all that is needed of it, besides the other side, for
joining under some comparisons and for reading some targets off the result. -/
structure Suffices (kept : List Variable) (side other : Atom) (cs : List Comparison)
    (targets : List Variable) : Prop where
  present : ∀ v ∈ kept, v ∈ side.vars
  targets : ∀ v ∈ targets, v ∈ side.vars → v ∈ kept
  shared : ∀ v ∈ side.vars, v ∈ other.vars → v ∈ kept
  related : ∀ c ∈ cs, c.Relates side other → ∀ v ∈ c.vars, v ∈ side.vars → v ∈ kept

section Sides

variable {outer inner : Atom} {cs : List Comparison} {targets keptOuter keptInner : List Variable}

/-- A narrowed pair gives a variable what the pair gives it, if each side that has it keeps it. -/
theorem readPair_narrowed {v : Variable} (hpresent : v ∈ keptOuter → v ∈ outer.vars)
    (houter : v ∈ outer.vars → v ∈ keptOuter) (hinner : v ∉ outer.vars → v ∈ keptInner)
    (t u : Tuple) :
    (Atom.narrowed keptOuter).readPair (Atom.narrowed keptInner) (outer.narrow keptOuter t)
      (inner.narrow keptInner u) v = outer.readPair inner t u v := by
  rw [Atom.readPair, Atom.readPair]
  by_cases hv : v ∈ outer.vars
  · rw [if_pos (Atom.mem_vars_narrowed.mpr (houter hv)), if_pos hv, Atom.read_narrow (houter hv)]
  · rw [if_neg (mt (hpresent ∘ Atom.mem_vars_narrowed.mp) hv), if_neg hv,
      Atom.read_narrow (hinner hv)]

variable (hkeptOuter : Suffices keptOuter outer inner cs targets)
  (hkeptInner : Suffices keptInner inner outer cs targets)
include hkeptOuter hkeptInner

/-- The comparisons that relate the sides are still those that relate them once they are
narrowed. -/
theorem relates_narrowed_iff {c : Comparison} (hc : c ∈ cs) :
    c.Relates (.narrowed keptOuter) (.narrowed keptInner) ↔ c.Relates outer inner := by
  constructor
  · rintro ⟨v, w, hl, hr, hvw⟩
    simp only [Atom.mem_vars_narrowed] at hvw
    exact ⟨v, w, hl, hr, hvw.imp
      (fun ⟨hv, hw⟩ => ⟨hkeptOuter.present v hv, hkeptInner.present w hw⟩)
      fun ⟨hw, hv⟩ => ⟨hkeptOuter.present w hw, hkeptInner.present v hv⟩⟩
  · intro h
    have ho := hkeptOuter.related c hc h
    have hi := hkeptInner.related c hc (Comparison.relates_comm.mp h)
    obtain ⟨v, w, hl, hr, hvw⟩ := h
    have hv : v ∈ c.vars := Comparison.mem_vars.mpr (.inl hl)
    have hw : w ∈ c.vars := Comparison.mem_vars.mpr (.inr hr)
    refine ⟨v, w, hl, hr, ?_⟩
    simp only [Atom.mem_vars_narrowed]
    exact hvw.imp (fun ⟨hvo, hwi⟩ => ⟨ho v hv hvo, hi w hw hwi⟩)
      fun ⟨hwo, hvi⟩ => ⟨ho w hw hwo, hi v hv hvi⟩

/-- **Narrowing does not change which pairs match.** -/
theorem matches_narrowed_iff (t u : Tuple) :
    Matches (.narrowed keptOuter) (.narrowed keptInner) cs (outer.narrow keptOuter t)
      (inner.narrow keptInner u) ↔ Matches outer inner cs t u := by
  -- The comparisons look at the same values, since the sides keep all their variables.
  have hholds : ∀ c ∈ cs, c.Relates outer inner →
      c.holdsIn ((Atom.narrowed keptOuter).readPair (.narrowed keptInner)
        (outer.narrow keptOuter t) (inner.narrow keptInner u)) =
      c.holdsIn (outer.readPair inner t u) := by
    intro c hc h
    refine Comparison.holdsIn_congr fun v hv => readPair_narrowed (hkeptOuter.present v)
      (hkeptOuter.related c hc h v hv) (fun hvo => ?_) t u
    have hvi := (h.mem v hv).resolve_left hvo
    exact hkeptInner.related c hc (Comparison.relates_comm.mp h) v hv hvi
  constructor
  · rintro ⟨hshared, hrelated⟩
    constructor
    case shared =>
      intro v hvo hvi
      have ho := hkeptOuter.shared v hvo hvi
      have hi := hkeptInner.shared v hvi hvo
      rw [← Atom.read_narrow ho t, ← Atom.read_narrow hi u]
      exact hshared v (Atom.mem_vars_narrowed.mpr ho) (Atom.mem_vars_narrowed.mpr hi)
    case related =>
      intro c hc h
      rw [← hholds c hc h]
      exact hrelated c hc ((relates_narrowed_iff hkeptOuter hkeptInner hc).mpr h)
  · rintro ⟨hshared, hrelated⟩
    constructor
    case shared =>
      intro v hvo hvi
      rw [Atom.mem_vars_narrowed] at hvo hvi
      rw [Atom.read_narrow hvo, Atom.read_narrow hvi]
      exact hshared v (hkeptOuter.present v hvo) (hkeptInner.present v hvi)
    case related =>
      intro c hc h
      have h' := (relates_narrowed_iff hkeptOuter hkeptInner hc).mp h
      rw [hholds c hc h']
      exact hrelated c hc h'

end Sides

/-! ## What a projected join emits -/

open Classical in
/-- What the matching pairs of two lists of tuples give some variables, in the order of a nested
loop, each list of values where it occurs first. -/
noncomputable def matchedRows (outer inner : Atom) (cs : List Comparison) (targets : List Variable)
    (ts us : List Tuple) : List Tuple :=
  (ts.flatMap fun t => (us.filter fun u => Matches outer inner cs t u).map fun u =>
    targets.map (outer.readPair inner t u)).eraseDups

/-- They are what the pairs that a join emits give the variables, each list of values once. -/
theorem narrow_pairs {outer inner : Atom} {ts us : List Tuple}
    (hts : ∀ t ∈ ts, t.length = outer.arity) (hus : ∀ u ∈ us, u.length = inner.arity)
    (name : String) (cs : List Comparison) (targets : List Variable) :
    ((ts.flatMap fun t => (us.filter (Plan.pairs (Plan.joinConditions outer inner cs) t)).map
      (t ++ ·)).map (Atom.narrow ⟨name, outer.terms ++ inner.terms⟩ targets)).eraseDups =
      matchedRows outer inner cs targets ts us := by
  classical
  rw [matchedRows, List.map_flatMap]
  refine congrArg List.eraseDups (List.flatMap_congr fun t ht => ?_)
  have hfilter : us.filter (Plan.pairs (Plan.joinConditions outer inner cs) t) =
      us.filter fun u => Matches outer inner cs t u := by
    refine List.filter_congr fun u hu => ?_
    rw [Bool.eq_iff_iff, Plan.pairs_iff_matches (hts t ht) (hus u hu), decide_eq_true_iff]
  rw [hfilter, List.map_map]
  refine List.map_congr_left fun u _ => ?_
  exact congrArg (targets.map ·) (Atom.read_append name (hts t ht) u)

open Classical in
/-- **Narrowed rows, each once, show the same matches as all rows.** -/
theorem matchedRows_narrowed {outer inner : Atom} {cs : List Comparison}
    {targets keptOuter keptInner : List Variable}
    (htargets : ∀ v ∈ targets, v ∈ outer.vars ∨ v ∈ inner.vars)
    (hkeptOuter : Suffices keptOuter outer inner cs targets)
    (hkeptInner : Suffices keptInner inner outer cs targets) (ts us : List Tuple) :
    matchedRows (.narrowed keptOuter) (.narrowed keptInner) cs targets
      (ts.map (outer.narrow keptOuter)).eraseDups (us.map (inner.narrow keptInner)).eraseDups =
    matchedRows outer inner cs targets ts us := by
  have hread : ∀ t u, targets.map ((Atom.narrowed keptOuter).readPair (.narrowed keptInner)
      (outer.narrow keptOuter t) (inner.narrow keptInner u)) =
      targets.map (outer.readPair inner t u) := by
    intro t u
    refine List.map_congr_left fun v hv => readPair_narrowed (hkeptOuter.present v)
      (hkeptOuter.targets v hv) (fun hvo => ?_) t u
    exact hkeptInner.targets v hv ((htargets v hv).resolve_left hvo)
  -- Repetitions do not count, so the sides may as well be narrowed without erasing any.
  have halike : ∀ xs : List Tuple, Alike false xs.eraseDups xs :=
    fun _ => (Alike.of_eq rfl).eraseDups
  have hloop := (halike (ts.map (outer.narrow keptOuter))).flatMap fun t _ =>
    ((halike (us.map (inner.narrow keptInner))).filter
      fun u => Matches (.narrowed keptOuter) (.narrowed keptInner) cs t u).map
        fun u => targets.map ((Atom.narrowed keptOuter).readPair (.narrowed keptInner) t u)
  rw [matchedRows, hloop.eraseDups_eq, matchedRows]
  simp only [List.flatMap_map, List.filter_map, List.map_map, Function.comp_def, hread,
    matches_narrowed_iff hkeptOuter hkeptInner]

namespace Machine

variable {store : Storage} {outer inner : Machine} {ts us : List Tuple}
  {cs : List Comparison} {targets keptOuter keptInner : List Variable}

/-- A projected join emits what the matching pairs give its targets. -/
theorem exists_project_join (houter : outer.Replays store ⟨ts, none⟩)
    (hinner : inner.Replays store ⟨us, none⟩) (hts : ∀ t ∈ ts, t.length = outer.schema.arity)
    (hus : ∀ u ∈ us, u.length = inner.schema.arity)
    (htargets : ∀ v ∈ targets, v ∈ outer.schema.vars ∨ v ∈ inner.schema.vars)
    (cs : List Comparison) :
    ∃ m, (outer.join inner cs).project targets = .ok m ∧ m.schema = .narrowed targets ∧
      m.Replays store ⟨matchedRows outer.schema inner.schema cs targets ts us, none⟩ := by
  have hvars : ∀ v ∈ targets, v ∈ (outer.join inner cs).schema.vars := by
    intro v hv
    rw [Atom.mem_vars]
    exact List.mem_append.mpr ((htargets v hv).imp Atom.mem_vars.mp Atom.mem_vars.mp)
  obtain ⟨m, hm, hschema, hreplays⟩ := exists_project_read hvars
  refine ⟨m, hm, hschema, ?_⟩
  have hjoin := Source.replays_join houter hinner
    (Plan.pairs (Plan.joinConditions outer.schema inner.schema cs))
  rw [Yield.join_eq_flatMap _ _ _ rfl] at hjoin
  have hproject := hreplays store _ hjoin fun w hw => by
    obtain ⟨t, ht, hw⟩ := List.mem_flatMap.mp hw
    obtain ⟨u, hu, rfl⟩ := List.mem_map.mp hw
    rw [List.length_append, hts t ht, hus u (List.mem_of_mem_filter hu)]
    exact List.length_append.symm
  rw [← narrow_pairs hts hus "Join" cs targets]
  exact hproject

/-- **Projections go through joins.** If the sides of a join are projected to what suffices first,
the projection of the join emits the same rows in the same order, and again after every reset. -/
theorem project_join_narrowed (houter : outer.Replays store ⟨ts, none⟩)
    (hinner : inner.Replays store ⟨us, none⟩) (hts : ∀ t ∈ ts, t.length = outer.schema.arity)
    (hus : ∀ u ∈ us, u.length = inner.schema.arity)
    (htargets : ∀ v ∈ targets, v ∈ outer.schema.vars ∨ v ∈ inner.schema.vars)
    (hkeptOuter : Suffices keptOuter outer.schema inner.schema cs targets)
    (hkeptInner : Suffices keptInner inner.schema outer.schema cs targets) :
    ∃ whole o i parts, (outer.join inner cs).project targets = .ok whole ∧
      outer.project keptOuter = .ok o ∧ inner.project keptInner = .ok i ∧
      (o.join i cs).project targets = .ok parts ∧ parts.schema = whole.schema ∧
      whole.Replays store ⟨matchedRows outer.schema inner.schema cs targets ts us, none⟩ ∧
      parts.Replays store ⟨matchedRows outer.schema inner.schema cs targets ts us, none⟩ ∧
      (parts.collect store).1 = (whole.collect store).1 := by
  obtain ⟨whole, hwhole, hwholeSchema, hwholeRows⟩ :=
    exists_project_join houter hinner hts hus htargets cs
  obtain ⟨o, ho, hoSchema, hoRows⟩ := exists_project_read hkeptOuter.present
  obtain ⟨i, hi, hiSchema, hiRows⟩ := exists_project_read hkeptInner.present
  have hwidth : ∀ (side : Atom) (kept : List Variable) (xs : List Tuple),
      ∀ x ∈ (xs.map (side.narrow kept)).eraseDups, x.length = (Atom.narrowed kept).arity := by
    intro side kept xs x hx
    obtain ⟨y, -, rfl⟩ := List.mem_map.mp (List.mem_eraseDups.mp hx)
    simp [Atom.narrow, Atom.narrowed, Atom.arity]
  have hkept : ∀ v ∈ targets, v ∈ o.schema.vars ∨ v ∈ i.schema.vars := by
    intro v hv
    rw [hoSchema, hiSchema, Atom.mem_vars_narrowed, Atom.mem_vars_narrowed]
    exact (htargets v hv).imp (hkeptOuter.targets v hv) (hkeptInner.targets v hv)
  obtain ⟨parts, hparts, hpartsSchema, hpartsRows⟩ :=
    exists_project_join (hoRows store ts houter hts) (hiRows store us hinner hus)
      (hoSchema ▸ hwidth _ _ ts) (hiSchema ▸ hwidth _ _ us) hkept cs
  rw [hoSchema, hiSchema, matchedRows_narrowed htargets hkeptOuter hkeptInner] at hpartsRows
  exact ⟨whole, o, i, parts, hwhole, ho, hi, hparts, hpartsSchema.trans hwholeSchema.symm,
    hwholeRows, hpartsRows,
    (collect_eq_of_replays hpartsRows).trans (collect_eq_of_replays hwholeRows).symm⟩

/-- An atom that shares a variable with `twiceAndOne`. -/
def sharingAtom : Atom :=
  ⟨"S", [.var ⟨"y"⟩, .var ⟨"z"⟩]⟩

/-- Rows of which the last equals the first. -/
def sharingRows : List Tuple :=
  [[.integer 3, .integer 5], [.integer 3, .integer 1], [.integer 3, .integer 5]]

/-- One of the columns is kept twice, and the first and the last outer row are the same in the
columns that are kept. -/
theorem project_join_narrowed_sharing :
    ∃ whole o i parts,
      ((rows twiceAndOne twiceAndOneRows).join (rows sharingAtom sharingRows)
        [⟨.var ⟨"z"⟩, .gt, .var ⟨"x"⟩⟩]).project [⟨"z"⟩, ⟨"x"⟩] = .ok whole ∧
      (rows twiceAndOne twiceAndOneRows).project [⟨"y"⟩, ⟨"x"⟩, ⟨"y"⟩] = .ok o ∧
      (rows sharingAtom sharingRows).project [⟨"z"⟩, ⟨"y"⟩] = .ok i ∧
      (o.join i [⟨.var ⟨"z"⟩, .gt, .var ⟨"x"⟩⟩]).project [⟨"z"⟩, ⟨"x"⟩] = .ok parts ∧
      (whole.collect Catalog.smallStore).1 =
        ([[.integer 5, .integer 2], [.integer 5, .integer 4]], none) ∧
      (parts.collect Catalog.smallStore).1 = (whole.collect Catalog.smallStore).1 := by
  have houter : (rows twiceAndOne twiceAndOneRows).Replays Catalog.smallStore
      ⟨twiceAndOneRows, none⟩ := Source.replays_rows _
  have hinner : (rows sharingAtom sharingRows).Replays Catalog.smallStore ⟨sharingRows, none⟩ :=
    Source.replays_rows _
  have hkeptOuter : Suffices [⟨"y"⟩, ⟨"x"⟩, ⟨"y"⟩] twiceAndOne sharingAtom
      [⟨.var ⟨"z"⟩, .gt, .var ⟨"x"⟩⟩] [⟨"z"⟩, ⟨"x"⟩] :=
    ⟨by decide, by decide, by decide, fun c hc _ => by cases List.mem_singleton.mp hc; decide⟩
  have hkeptInner : Suffices [⟨"z"⟩, ⟨"y"⟩] sharingAtom twiceAndOne
      [⟨.var ⟨"z"⟩, .gt, .var ⟨"x"⟩⟩] [⟨"z"⟩, ⟨"x"⟩] :=
    ⟨by decide, by decide, by decide, fun c hc _ => by cases List.mem_singleton.mp hc; decide⟩
  obtain ⟨whole, o, i, parts, hwhole, ho, hi, hparts, -, -, -, hsame⟩ :=
    project_join_narrowed houter hinner (by decide) (by decide) (by decide) hkeptOuter hkeptInner
  refine ⟨whole, o, i, parts, hwhole, ho, hi, hparts, ?_, hsame⟩
  cases hwhole
  apply collect_eq_of_replays (o := ⟨[[.integer 5, .integer 2], [.integer 5, .integer 4]], none⟩)
  exact Source.replays_distinct (Source.replays_join houter hinner _) _

end Machine

end Conjunct
