import Conjunct.Proofs.Columns
import Conjunct.Proofs.Validity

/-!
# The columns behind a query's variables

A variable of a query is bound by the first atom, in the order of the body, in which it stands, and
there by its first position. The values of the variable are read from this column: wherever an
operator looks the variable up, the position it finds has the column as its origin
(`Traced.binds`).

**Theorem (`records_from_origins`).** Whatever is asked of a planned query, over whatever files,
every operator hands out tuples with a field for each term of its schema and with the kinds of the
columns that the fields are read from. No field that an operator looks up is ever missing, and a sum
can run into a value that is no integer only if some variable under it is bound by a column of
strings.

Joining appends schemas, so the first position of a variable is the outer one wherever the outer
side has the variable at all. That it has every variable that the atoms so far share with the next
one is what narrowing guarantees (`Inherited.join`).
-/

namespace Conjunct

/-! ## Positions in schemas -/

namespace Plan

variable {schema outer inner : Atom}

theorem lt_arity_of_ofTerm? {t : Term} {x : Operand} (h : Operand.ofTerm? schema t = some x) :
    ∀ i ∈ x.positions, i < schema.arity := by
  cases t with
  | const c =>
    cases h
    simp [Operand.positions]
  | var v =>
    obtain ⟨i, hi, rfl⟩ := Option.map_eq_some_iff.mp h
    simpa [Operand.positions] using Atom.lt_arity_of_position? hi

theorem lt_arity_of_selectionPredicates {cs : List Comparison} {ps : List Predicate}
    (h : selectionPredicates schema cs = .ok ps) :
    ∀ p ∈ ps, ∀ i ∈ p.left.positions ++ p.right.positions, i < schema.arity := by
  fun_induction selectionPredicates schema cs generalizing ps with
  | case1 =>
    cases h
    simp
  | case2 c cs _ ih => exact ih h
  | case3 => cases h
  | case4 c cs _ p hp ih =>
    obtain ⟨rest, hrest, rfl⟩ := exists_of_map_eq_ok h
    obtain ⟨-, hleft, hright⟩ := Predicate.bind?_eq_some_iff.mp hp
    refine List.forall_mem_cons.mpr ⟨fun i hi => ?_, ih hrest⟩
    exact (List.mem_append.mp hi).elim (lt_arity_of_ofTerm? hleft i)
      (lt_arity_of_ofTerm? hright i)

theorem lt_arity_of_joinConditions {cs : List Comparison} :
    ∀ c ∈ joinConditions outer inner cs, c.outer < outer.arity ∧ c.inner < inner.arity := by
  have hresolve : ∀ {c : Comparison} {p : JoinCondition},
      JoinCondition.resolve? outer inner c = some p →
        p.outer < outer.arity ∧ p.inner < inner.arity := by
    intro c p hp
    obtain ⟨-, v, w, -, -, hi, hj⟩ := JoinCondition.resolve?_eq_some_iff.mp hp
    exact ⟨Atom.lt_arity_of_position? hi, Atom.lt_arity_of_position? hj⟩
  intro p hp
  rcases List.mem_append.mp hp with hp | hp
  · obtain ⟨c, -, hc⟩ := List.mem_filterMap.mp hp
    rcases Option.or_eq_some_iff.mp hc with hc | ⟨-, hc⟩
    · exact hresolve hc
    · exact hresolve hc
  · obtain ⟨v, -, hv⟩ := List.mem_filterMap.mp hp
    exact hresolve hv

end Plan

/-! ## Origins at positions -/

theorem originAt_map {α : Type} {f : α → Origin} {xs : List α} {i : Nat} {x : α}
    (h : xs[i]? = some x) : originAt (xs.map f) i = f x := by
  rw [originAt, List.getElem?_map, h]
  rfl

theorem originAt_append_left {os os' : List Origin} {i : Nat} (h : i < os.length) :
    originAt (os ++ os') i = originAt os i := by
  rw [originAt, List.getElem?_append_left h, originAt]

theorem originAt_append_right {os os' : List Origin} {i : Nat} :
    originAt (os ++ os') (i + os.length) = originAt os' i := by
  rw [originAt, List.getElem?_append_right (Nat.le_add_left _ _), Nat.add_sub_cancel, originAt]

namespace Query

variable {store : Storage} {catalog : Catalog} {q : Query} {strings : Prop}

/-! ## Bound variables -/

/-- The column that binds a variable: in the first atom in which it stands, its first position. -/
def originIn? (catalog : Catalog) (atoms : List Atom) (v : Variable) : Option Origin :=
  atoms.findSome? fun a => (a.position? v).bind fun i =>
    (catalog.relation? a.relation).map fun r => .column r i

/-- The kind of the column that binds a variable of a query. -/
def kindOf? (catalog : Catalog) (q : Query) (v : Variable) : Option Kind :=
  (originIn? catalog q.atoms v).bind Origin.kind?

theorem originIn?_append (atoms atoms' : List Atom) (v : Variable) :
    originIn? catalog (atoms ++ atoms') v =
      (originIn? catalog atoms v).or (originIn? catalog atoms' v) :=
  List.findSome?_append

theorem mem_boundIn_of_originIn? {atoms : List Atom} {v : Variable} {o : Origin}
    (h : originIn? catalog atoms v = some o) : v ∈ boundIn atoms := by
  obtain ⟨a, ha, hfound⟩ := List.exists_of_findSome?_eq_some h
  obtain ⟨i, hi, -⟩ := Option.bind_eq_some_iff.mp hfound
  exact mem_boundIn.mpr ⟨a, ha, Atom.mentions_iff.mp (Option.isSome_of_eq_some hi)⟩

/-! ## Traced machines -/

/-- A machine for some atoms is well typed and in order, and its variables come from the columns
that bind them. -/
structure Traced (catalog : Catalog) (strings : Prop) (atoms : List Atom) (m : Machine) : Prop where
  typed : m.plan.WellTyped catalog
  /-- There is no sum in it. -/
  unsummed : ¬ m.plan.SumsString
  tracks : m.plan.Tracks strings (m.plan.unrecorded m.state) m.state
  binds : ∀ v i, m.schema.position? v = some i →
    originIn? catalog atoms v = some (originAt m.plan.origins i)

/-- The origins at the positions that are located for variables. -/
theorem Traced.origins_of_locate {atoms : List Atom} {m : Machine} {vs : List Variable}
    {ps : List (Variable × Nat)} (h : Traced catalog strings atoms m)
    (hps : vs.mapM (Plan.locate m.schema) = .ok ps) :
    ((ps.map Prod.snd).map (originAt m.plan.origins)).map some =
      vs.map (originIn? catalog atoms) := by
  have hall := mapM_eq_ok_iff.mp hps
  induction hall with
  | nil => rfl
  | cons hlocate hrest ih =>
    obtain ⟨-, hposition⟩ := Plan.position?_of_locate hlocate
    have htail := ih (mapM_eq_ok_iff.mpr hrest)
    simp only [List.map_cons, htail, h.binds _ _ hposition]

theorem Traced.scan {a : Atom} {r : Relation} {path : Path} {m : Machine}
    (hr : catalog.relation? a.relation = some r) (harity : r.arity = a.arity)
    (h : Machine.scan store r path a = .ok m) : Traced catalog strings [a] m := by
  obtain ⟨s, hs, rfl⟩ := exists_of_map_eq_ok h
  constructor
  case typed => exact .scan hr harity
  case unsummed => exact id
  case tracks => exact ⟨⟨rfl, Source.clean_of_openScan hs⟩, nofun⟩
  case binds =>
    intro v i hi
    have hi' : a.position? v = some i := hi
    have hlt : i < r.arity := harity ▸ Atom.lt_arity_of_position? hi'
    have horigin : originAt r.origins i = .column r i :=
      originAt_map (List.getElem?_range hlt)
    rw [originIn?, List.findSome?_singleton, hi', hr]
    exact congrArg some horigin.symm

theorem Traced.select {atoms : List Atom} {child m : Machine} {cs : List Comparison}
    (h : Traced catalog strings atoms child) (hm : child.select cs = .ok m) :
    Traced catalog strings atoms m := by
  obtain ⟨ps, hps, rfl⟩ := exists_of_map_eq_ok hm
  have hresolved : (Plan.select child.plan ps).Resolved := by
    intro input hinput i hi
    cases List.mem_singleton.mp hinput
    rcases List.mem_append.mp hi with hi | hi
    · exact List.mem_range.mp hi
    · obtain ⟨p, hp, hposition⟩ := List.mem_flatMap.mp hi
      exact Plan.lt_arity_of_selectionPredicates hps p hp i hposition
  exact ⟨.select h.typed hresolved, h.unsummed, ⟨h.tracks, nofun⟩, h.binds⟩

theorem Traced.project {atoms : List Atom} {child m : Machine} {targets : List Variable}
    (h : Traced catalog strings atoms child) (hm : child.project targets = .ok m) :
    Traced catalog strings atoms m := by
  obtain ⟨ps, hps, rfl⟩ := exists_of_map_eq_ok hm
  have hresolved : (Plan.project child.plan ps).Resolved := by
    intro input hinput i hi
    cases List.mem_singleton.mp hinput
    exact Plan.lt_arity_of_locate hps i hi
  refine ⟨.project h.typed hresolved, h.unsummed, ⟨⟨h.tracks, rfl⟩, nofun⟩, fun v j hj => ?_⟩
  have hterm : (ps.map fun p => Term.var p.1)[j]? = some (.var v) := Atom.terms_of_position? hj
  rw [List.getElem?_map] at hterm
  obtain ⟨p, hp, hv⟩ := Option.map_eq_some_iff.mp hterm
  cases hv
  obtain ⟨w, -, hlocate⟩ := exists_of_mem_mapM hps p (List.mem_of_getElem? hp)
  have horigin : originAt ((ps.map Prod.snd).map (originAt child.plan.origins)) j =
      originAt child.plan.origins p.2 :=
    originAt_map (by rw [List.getElem?_map, hp, Option.map_some])
  obtain ⟨rfl, hposition⟩ := Plan.position?_of_locate hlocate
  exact (h.binds p.1 p.2 hposition).trans (congrArg some horigin.symm)

theorem Traced.join {atoms : List Atom} {a : Atom} {outer inner : Machine} {cs : List Comparison}
    (houter : Traced catalog strings atoms outer) (hinner : Traced catalog strings [a] inner)
    (hshared : ∀ v ∈ boundIn atoms, v ∈ boundIn [a] →
      v ∈ outer.schema.vars ∧ v ∈ inner.schema.vars) :
    Traced catalog strings (atoms ++ [a]) (outer.join inner cs) := by
  have hresolved : (outer.join inner cs).plan.Resolved := by
    intro input hinput i hi
    rcases List.mem_cons.mp hinput with rfl | hinput
    · obtain ⟨c, hc, rfl⟩ := List.mem_map.mp hi
      exact (Plan.lt_arity_of_joinConditions c hc).1
    · cases List.mem_singleton.mp hinput
      obtain ⟨c, hc, rfl⟩ := List.mem_map.mp hi
      exact (Plan.lt_arity_of_joinConditions c hc).2
  have hlength : outer.plan.origins.length = outer.schema.arity := houter.typed.length_origins
  refine ⟨.join houter.typed hinner.typed hresolved,
    fun h => h.elim houter.unsummed hinner.unsummed,
    ⟨⟨houter.tracks, hinner.tracks, rfl, nofun⟩, nofun⟩, fun v i hi => ?_⟩
  have hi : (outer.schema.position? v).or
      ((inner.schema.position? v).map (· + outer.schema.arity)) = some i :=
    (Atom.position?_append _ _ _ v).symm.trans hi
  show _ = some (originAt (outer.plan.origins ++ inner.plan.origins) i)
  rw [originIn?_append]
  rcases Option.or_eq_some_iff.mp hi with hi | ⟨hnone, hi⟩
  · have hlt : i < outer.plan.origins.length := hlength ▸ Atom.lt_arity_of_position? hi
    rw [houter.binds v i hi, originAt_append_left hlt, Option.some_or]
  · -- The outer side does not have the variable, so no earlier atom has it.
    obtain ⟨j, hj, rfl⟩ := Option.map_eq_some_iff.mp hi
    have hbinds := hinner.binds v j hj
    have hearlier : originIn? catalog atoms v = none := by
      rw [Option.eq_none_iff_forall_ne_some]
      intro o ho
      have hmem := (hshared v (mem_boundIn_of_originIn? ho) (mem_boundIn_of_originIn? hbinds)).1
      obtain ⟨k, hk⟩ := Atom.position?_of_mem hmem
      cases hnone.symm.trans hk
    rw [hearlier, Option.none_or, hbinds, ← hlength, originAt_append_right]

/-- Machines for the atoms of a query are traced. -/
theorem inherited_traced (hfault : q.fault? catalog = none) :
    Inherited store catalog q (Traced catalog strings) :=
  .of_operators hfault (fun _ hr harity hm => .scan hr harity hm) (fun h _ hm => h.select hm)
    (fun h hm => h.project hm) fun houter hinner _ hshared => houter.join hinner hshared

/-! ## Planned queries -/

variable {root : Machine}

/-- A variable under the sum of a query is bound by a column of strings. -/
def SumsStrings (catalog : Catalog) (q : Query) : Prop :=
  ∃ s v, q.head.sum? = some s ∧ .var v ∈ s.factors ∧ q.kindOf? catalog v = some .string

/-- The origins of the answers to a query: the columns that bind the variables of its head, and a
total for a sum. -/
def origins (catalog : Catalog) (q : Query) : List (Option Origin) :=
  q.head.outputs.map (originIn? catalog q.atoms) ++
    if q.head.sum?.isSome then [some .total] else []

/-- The machine of a query is well typed and in order, and yields what the head asks for. -/
structure Rooted (catalog : Catalog) (q : Query) (root : Machine) : Prop where
  typed : root.plan.WellTyped catalog
  strings : root.plan.SumsString → q.SumsStrings catalog
  tracks : root.plan.Tracks (q.SumsStrings catalog) (root.plan.unrecorded root.state) root.state
  origins : root.plan.origins.map some = q.origins catalog

/-- What the head asks for, on top of a traced machine. -/
theorem Traced.finish {joined : Machine}
    (h : Traced catalog (q.SumsStrings catalog) q.atoms joined)
    (hfinish : q.finish joined = .ok root) : q.Rooted catalog root := by
  rcases of_finish hfinish with ⟨s, hsum, htotals⟩ | ⟨hsum, hproject⟩
  · obtain ⟨spec, hspec, rfl⟩ := exists_of_map_eq_ok htotals
    have hresolved : (Plan.sum joined.plan spec).Resolved := by
      intro input hinput i hi
      cases List.mem_singleton.mp hinput
      rcases List.mem_append.mp hi with hi | hi
      · exact Plan.lt_arity_of_resolveSum hspec i hi
      · obtain ⟨f, hf, hposition⟩ := List.mem_flatMap.mp hi
        cases f with
        | literal n => cases hposition
        | field position term =>
          cases List.mem_singleton.mp hposition
          obtain ⟨v, -, hv⟩ := Plan.position?_of_resolveSum hspec hf
          exact Atom.lt_arity_of_position? hv
    refine ⟨.sum h.typed hresolved, ?_, ⟨⟨h.tracks, rfl, nofun⟩, nofun⟩, ?_⟩
    · rintro (hs | ⟨position, term, hfactor, hkind⟩)
      · exact absurd hs h.unsummed
      · obtain ⟨v, hv, hposition⟩ := Plan.position?_of_resolveSum hspec hfactor
        refine ⟨s, v, hsum, hv, ?_⟩
        rw [kindOf?, h.binds v position hposition, Option.bind_some]
        exact hkind
    · obtain ⟨-, hgroup, -⟩ := Machine.of_resolveSum hspec
      rw [Query.origins, hsum, Option.isSome_some, if_pos rfl, ← h.origins_of_locate hgroup]
      exact List.map_append
  · have hroot := h.project hproject
    refine ⟨hroot.typed, fun hs => absurd hs hroot.unsummed, hroot.tracks, ?_⟩
    obtain ⟨ps, hps, rfl⟩ := exists_of_map_eq_ok hproject
    rw [Query.origins, hsum, Option.isSome_none, if_neg Bool.false_ne_true, List.append_nil]
    exact h.origins_of_locate hps

/-- Planned queries are well typed and in order. -/
theorem rooted_of_plan (hplan : q.plan store catalog = .ok root) : q.Rooted catalog root := by
  have hfault := fault?_of_plan hplan
  have hinherited : Inherited store catalog q (Traced catalog (q.SumsStrings catalog)) :=
    inherited_traced hfault
  obtain ⟨_, _, joined, -, -, hfinish, -, htraced⟩ :=
    exists_chain hinherited hfault (opens_of_plan hplan)
  exact htraced.finish (hfinish ▸ hplan)

/-- **Tuples come from their columns.** Whatever requests are made of a planned query, over whatever
files, keeping records does not show. Every operator hands out tuples with a field for each term of
its schema, of the kinds of declared columns, or of integers for a total. The fields that an
operator looks up in the tuples from below are all there, and no error says otherwise. A sum runs
into a value that is no integer only if some variable under it is bound by a column of strings. -/
theorem records_from_origins (hplan : q.plan store catalog = .ok root)
    (requests : List Request) :
    root.recordedReplies requests = root.replies requests ∧
    (∃ record, (root.plan, record) ∈ root.records requests) ∧
    ∀ op record, (op, record) ∈ root.records requests →
      (op.origins.length = op.schema.arity ∧ ∀ o ∈ op.origins, o.Declared catalog) ∧
      (∀ t, .tuple t ∈ record → t.length = op.schema.arity ∧
        t.map (fun c => some c.kind) = op.origins.map Origin.kind?) ∧
      (∀ input ∈ op.inputs,
        (∃ below, (input.1, below) ∈ root.records requests) ∧
        ∀ below, (input.1, below) ∈ root.records requests →
          ∀ t, .tuple t ∈ below → ∀ i ∈ input.2, i < t.length) ∧
      ∀ e, .failed e ∈ record →
        (∀ n, e ≠ .tupleTooShort n) ∧ (∀ term schema, e ≠ .termUnresolved term schema) ∧
        ∀ term found, e = .aggregateNotInteger term found → q.SumsStrings catalog := by
  obtain ⟨htyped, hstrings, htracks, -⟩ := rooted_of_plan hplan
  obtain ⟨hreplies, hend⟩ :=
    Request.serveAll_lockstep (Plan.lockstep htyped hstrings) requests htracks
  have hallowed := hend.allowed
  have hwell := htyped.of_mem_records (Request.serveAll (fun store => root.plan.recorded store)
    requests (root.plan.unrecorded root.state)).2
  have htuples : ∀ op record, (op, record) ∈ root.records requests → ∀ t, .tuple t ∈ record →
      t.From op.origins ∧ t.length = op.schema.arity := by
    intro op record hentry t ht
    have hfrom : t.From op.origins := hallowed _ hentry _ ht
    exact ⟨hfrom, hfrom.length_eq.trans (hwell _ hentry).length_origins⟩
  refine ⟨hreplies, Plan.exists_mem_records _ _, fun op record hentry => ⟨?_, ?_, ?_, ?_⟩⟩
  · exact ⟨(hwell _ hentry).length_origins, (hwell _ hentry).declared⟩
  · intro t ht
    obtain ⟨hfrom, hlength⟩ := htuples op record hentry t ht
    exact ⟨hlength, hfrom.map_kind⟩
  · intro input hinput
    refine ⟨Plan.withInputs_records _ _ _ hentry input hinput, fun below hbelow t ht i hi => ?_⟩
    rw [(htuples input.1 below hbelow t ht).2]
    exact (hwell _ hentry).resolved input hinput i hi
  · intro e he
    have hharmless : e.Harmless (q.SumsStrings catalog) := hallowed _ hentry _ he
    refine ⟨?_, ?_, ?_⟩
    · rintro n rfl
      exact hharmless
    · rintro term schema rfl
      exact hharmless
    · rintro term found rfl
      exact hharmless

theorem replays_twiceBySecond :
    ∃ root, twiceBySecond.plan Catalog.smallStore Catalog.small = .ok root ∧
      root.plan.origins = [.column ⟨"R", [.int, .int]⟩ 0, .total] ∧
      root.Replays Catalog.smallStore ⟨[[.integer 1, .integer 10]], none⟩ := by
  refine ⟨_, rfl, rfl, ?_⟩
  exact Source.replays_sum
    (Source.replays_join (Source.replays_scan _ rfl) (Source.replays_scan _ rfl) _) _

theorem records_from_origins_twiceBySecond :
    ∃ root, twiceBySecond.plan Catalog.smallStore Catalog.small = .ok root ∧
      root.recordedReplies [.dump Catalog.smallStore (fun ts t => (t :: ts, none)) []] =
        [.dumped [[Constant.integer 1, .integer 10]] none] ∧
      ∀ record, (root.plan, record) ∈ root.records
          [.dump Catalog.smallStore (fun ts t => (t :: ts, none)) ([] : List Tuple)] →
        ∀ t, .tuple t ∈ record → t.map (fun c => some c.kind) = [some .int, some .int] := by
  obtain ⟨root, hplan, horigins, hreplays⟩ := replays_twiceBySecond
  obtain ⟨hreplies, -, hrecords⟩ := records_from_origins hplan
    [.dump Catalog.smallStore (fun ts t => (t :: ts, none)) ([] : List Tuple)]
  refine ⟨root, hplan, hreplies.trans (Machine.replies_dump hreplays _ _), ?_⟩
  intro record hrecord t ht
  have hkinds := ((hrecords _ record hrecord).2.1 t ht).2
  rw [horigins] at hkinds
  exact hkinds

end Query

end Conjunct
