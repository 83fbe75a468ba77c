import Conjunct.Proofs.Answers

/-!
# Valid queries

A query is *valid* over a catalog if it has an atom, if each atom fits the declaration of its
relation, and if each variable of the head, of the sum and of a comparison stands in an atom. This
is said of the terms of the query, without the checks of the planner.

**Theorem (`plan_iff_valid`).** If its files open and no factor of its sum is a string, a query has
a plan exactly if it is valid.

After the checks there is nothing left for an operator to trip over: what is on top of the joined
leaves finds all its variables, because narrowing has kept them (`Joined.kept`), and the last join
leaves no comparison behind (`exists_chain`). What can still go wrong is a file that does not open
(`leaves_cases`) or a string under the sum (`finish_cases`).
-/

namespace Conjunct

namespace Query

/-- A variable stands in an atom of the body. -/
def Binds (q : Query) (v : Variable) : Prop :=
  ∃ a ∈ q.atoms, .var v ∈ a.terms

/-- A query that makes sense over a catalog. -/
structure Valid (catalog : Catalog) (q : Query) : Prop where
  atoms : q.atoms ≠ []
  relations : ∀ a ∈ q.atoms, ∃ r, catalog.relation? a.relation = some r ∧ r.arity = a.arity
  outputs : ∀ v ∈ q.head.outputs, q.Binds v
  factors : ∀ s ∈ q.head.sum?, ∀ v, .var v ∈ s.factors → q.Binds v
  sides : ∀ c ∈ q.comparisons, ∀ v, c.left = .var v ∨ c.right = .var v → q.Binds v

variable {store : Storage} {catalog : Catalog} {q : Query}

/-! ## Checks -/

theorem mem_boundIn_atoms {v : Variable} : v ∈ boundIn q.atoms ↔ q.Binds v := by
  simp only [mem_boundIn, Atom.mem_vars, Binds]

theorem atomFault?_eq_none_iff {a : Atom} :
    atomFault? catalog a = none ↔
      ∃ r, catalog.relation? a.relation = some r ∧ r.arity = a.arity := by
  refine ⟨exists_relation_of_atomFault?, ?_⟩
  rintro ⟨r, hr, harity⟩
  simp only [atomFault?, hr, if_pos harity]

/-- **The checks of the planner find exactly the queries that are not valid.** -/
theorem fault?_eq_none_iff_valid : q.fault? catalog = none ↔ q.Valid catalog := by
  have hsum : ∀ {s : Aggregate} {v : Variable}, v ∈ s.vars ↔ .var v ∈ s.factors :=
    Term.mem_variablesOf
  simp only [fault?_eq_none_iff, atomFault?_eq_none_iff, mem_boundIn_atoms, mem_distinguished,
    Comparison.mem_vars, hsum]
  constructor
  · rintro ⟨hatoms, hrelations, hhead, hsides⟩
    exact ⟨hatoms, hrelations, fun v hv => hhead v (.inl hv),
      fun s hs v hv => hhead v (.inr ⟨s, hs, hv⟩), hsides⟩
  · intro h
    refine ⟨h.atoms, h.relations, ?_, h.sides⟩
    rintro v (hv | ⟨s, hs, hv⟩)
    · exact h.outputs v hv
    · exact h.factors s hs v hv

instance : Decidable (q.Valid catalog) :=
  decidable_of_iff _ fault?_eq_none_iff_valid

/-! ## Leaves -/

/-- The error for an atom whose file does not open. -/
def unavailable (catalog : Catalog) (a : Atom) (reason : String) : PlanError :=
  .operatorFailed ("Scan " ++ a.render)
    (.relationUnavailable (catalog.relationPath a.relation) reason)

theorem leaf_of_not_opens {a : Atom} {r : Relation} (hr : catalog.relation? a.relation = some r)
    (hopen : ¬ catalog.Opens store a.relation) (cs : List Comparison) :
    ∃ reason, leaf store catalog a cs = .error (unavailable catalog a reason) := by
  cases hreader : store.openReader (catalog.relationPath a.relation) with
  | ok reader => exact absurd ⟨reader, hreader⟩ hopen
  | error e =>
    refine ⟨e.message, ?_⟩
    simp only [leaf, hr, Machine.scan, Source.openScan, hreader, Except.map, Except.mapError, bind,
      Except.bind, unavailable]

theorem opens_of_leaf {a : Atom} {cs : List Comparison} {m : Machine}
    (h : leaf store catalog a cs = .ok m) : catalog.Opens store a.relation := by
  cases hr : catalog.relation? a.relation with
  | none => simp [leaf, hr] at h
  | some r =>
    by_contra hopen
    obtain ⟨reason, herror⟩ := leaf_of_not_opens hr hopen cs
    cases herror.symm.trans h

theorem opens_of_leaves {ms : List Machine} (h : q.leaves store catalog = .ok ms) :
    ∀ a ∈ q.atoms, catalog.Opens store a.relation := by
  intro a ha
  obtain ⟨position, hposition⟩ := List.mem_iff_getElem?.mp ha
  obtain ⟨m, hm⟩ := exists_ok_of_mapM h (a, position) (List.mem_zipIdx_iff_getElem?.mpr hposition)
  exact opens_of_leaf hm

theorem opens_of_plan {m : Machine} (h : q.plan store catalog = .ok m) :
    ∀ a ∈ q.atoms, catalog.Opens store a.relation := by
  simp only [plan, fault?_of_plan h] at h
  obtain ⟨ms, hleaves, -⟩ := exists_of_bind_eq_ok h
  exact opens_of_leaves hleaves

/-- The only thing that can go wrong with a leaf is that its file does not open. -/
theorem leaves_cases (hfault : q.fault? catalog = none) :
    (∀ a ∈ q.atoms, catalog.Opens store a.relation) ∨
      ∃ a ∈ q.atoms, ¬ catalog.Opens store a.relation ∧
        ∃ reason, q.leaves store catalog = .error (unavailable catalog a reason) := by
  obtain ⟨_, hatoms, _, _⟩ := fault?_eq_none_iff.mp hfault
  cases hleaves : q.leaves store catalog with
  | ok ms => exact .inl (opens_of_leaves hleaves)
  | error e =>
    obtain ⟨⟨a, position⟩, hmem, herror⟩ := exists_error_of_mapM hleaves
    have ha : a ∈ q.atoms := List.mem_of_getElem? (List.mem_zipIdx_iff_getElem?.mp hmem)
    obtain ⟨r, hr, -⟩ := exists_relation_of_atomFault? (hatoms a ha)
    by_cases hopen : catalog.Opens store a.relation
    · obtain ⟨m, hm, -⟩ := exists_leaf (hatoms a ha) hopen (vars_of_selectionsAt (q := q))
      cases hm.symm.trans herror
    · obtain ⟨reason, hreason⟩ := leaf_of_not_opens hr hopen (q.selectionsAt position a)
      cases herror.symm.trans hreason
      exact .inr ⟨a, ha, hopen, reason, rfl⟩

/-! ## The operator on top -/

/-- The error for a string under a sum. -/
def notInteger (s : Aggregate) (text : String) : PlanError :=
  .operatorFailed ("Sum " ++ s.render)
    (.aggregateNotInteger (Constant.string text).render Kind.string.name)

/-- The operator on top is the head's sum, or else a projection to the head's variables. -/
theorem of_finish {joined m : Machine} (h : q.finish joined = .ok m) :
    (∃ s, q.head.sum? = some s ∧ joined.sum q.head.outputs s = .ok m) ∨
      q.head.sum? = none ∧ joined.project q.head.outputs = .ok m := by
  unfold finish at h
  split at h
  · next s hsum => exact .inl ⟨s, hsum, of_mapError_eq_ok h⟩
  · next hsum => exact .inr ⟨hsum, of_mapError_eq_ok h⟩

/-- A sum whose variables are all there can be made, unless a string is among its factors. -/
theorem exists_sum {child : Machine} {group : List Variable} {s : Aggregate}
    (hgroup : ∀ v ∈ group, v ∈ child.schema.vars) (hvars : ∀ v ∈ s.vars, v ∈ child.schema.vars) :
    (∃ m, child.sum group s = .ok m) ∨
      ∃ text, .const (.string text) ∈ s.factors ∧ child.sum group s =
        .error (.aggregateNotInteger (Constant.string text).render Kind.string.name) := by
  obtain ⟨ps, hps, -, -⟩ := Machine.exists_locate hgroup
  cases hfactors : s.factors.mapM (Plan.resolveFactor child.schema) with
  | ok fs =>
    left
    simp only [Machine.sum, Plan.resolveSum, hps, hfactors, bind, Except.bind, pure, Except.pure,
      Except.map, Except.ok.injEq, exists_eq']
  | error e =>
    obtain ⟨t, ht, herror⟩ := exists_error_of_mapM hfactors
    cases t with
    | var v =>
      obtain ⟨i, hi⟩ := Atom.position?_of_mem (hvars v (Term.mem_variablesOf.mpr ht))
      simp [Plan.resolveFactor, Plan.locate, hi, Except.map] at herror
    | const c =>
      cases c with
      | integer n => cases herror
      | string text =>
        cases herror
        refine .inr ⟨text, ht, ?_⟩
        simp only [Machine.sum, Plan.resolveSum, hps, hfactors, bind, Except.bind, Except.map]

/-- On top of the joined leaves nothing can go wrong but a string under the sum. -/
theorem finish_cases {joined : Machine} (hfault : q.fault? catalog = none)
    (hjoined : Joined store catalog q q.atoms [] joined) :
    (∃ m, q.finish joined = .ok m) ∨
      ∃ s text, q.head.sum? = some s ∧ .const (.string text) ∈ s.factors ∧
        q.finish joined = .error (notInteger s text) := by
  obtain ⟨_, _, hhead, _⟩ := fault?_eq_none_iff.mp hfault
  have houtputs : ∀ v ∈ q.head.outputs, v ∈ joined.schema.vars := fun v hv =>
    hjoined.kept v (hhead v (mem_distinguished.mpr (.inl hv))) (.inr (.inl hv))
  cases hsum : q.head.sum? with
  | none =>
    obtain ⟨m, hm, -⟩ := Machine.exists_project houtputs
    exact .inl ⟨m, by simp only [finish, hsum, hm, Except.mapError]⟩
  | some s =>
    have hvars : ∀ v ∈ s.vars, v ∈ joined.schema.vars := fun v hv =>
      hjoined.kept v (hhead v (mem_distinguished.mpr (.inr ⟨s, hsum, hv⟩)))
        (.inl (by rw [hsum, Option.isSome_some]))
    rcases exists_sum houtputs hvars with ⟨m, hm⟩ | ⟨text, htext, herror⟩
    · exact .inl ⟨m, by simp only [finish, hsum, hm, Except.mapError]⟩
    · refine .inr ⟨s, text, rfl, htext, ?_⟩
      simp only [finish, hsum, herror, Except.mapError, notInteger]

/-! ## Plans -/

/-- **Planning succeeds exactly on valid queries.** Of a query without a string under its sum, whose
files open, there is a plan exactly if it is valid. Whatever the files and the sum, once the checks
have passed, either some file does not open, or the joins apply every comparison, and the operator
on top can be made unless there is a string under the sum. -/
theorem plan_iff_valid (store : Storage) (catalog : Catalog) (q : Query) :
    ((∀ s ∈ q.head.sum?, ∀ text, .const (.string text) ∉ s.factors) →
      (∀ a ∈ q.atoms, (catalog.relation? a.relation).isSome = true →
        catalog.Opens store a.relation) →
      ((∃ m, q.plan store catalog = .ok m) ↔ q.Valid catalog)) ∧
    (q.fault? catalog = none →
      (∃ a ∈ q.atoms, ¬ catalog.Opens store a.relation ∧
        ∃ reason, q.plan store catalog = .error (unavailable catalog a reason)) ∨
      ∃ first later joined, q.leaves store catalog = .ok (first :: later) ∧
        q.joinPending first q.joinComparisons later = .ok (joined, []) ∧
        q.plan store catalog = q.finish joined ∧
        ((∃ m, q.finish joined = .ok m) ∨
          ∃ s text, q.head.sum? = some s ∧ .const (.string text) ∈ s.factors ∧
            q.finish joined = .error (notInteger s text))) := by
  refine ⟨fun hsum hopen => ⟨?_, fun hvalid => ?_⟩, fun hfault => ?_⟩
  · rintro ⟨m, hm⟩
    exact fault?_eq_none_iff_valid.mp (fault?_of_plan hm)
  · have hfault := fault?_eq_none_iff_valid.mpr hvalid
    have hopens : ∀ a ∈ q.atoms, catalog.Opens store a.relation := by
      intro a ha
      obtain ⟨r, hr, -⟩ := hvalid.relations a ha
      exact hopen a ha (Option.isSome_of_eq_some hr)
    obtain ⟨joined, hplan, hjoined⟩ := exists_joined hfault hopens
    rcases finish_cases hfault hjoined with ⟨m, hm⟩ | ⟨s, text, hs, htext, -⟩
    · exact ⟨m, hplan.trans hm⟩
    · exact absurd htext (hsum s hs text)
  · rcases leaves_cases hfault with hopens | ⟨a, ha, hopen, reason, hleaves⟩
    · obtain ⟨first, later, joined, hleaves, hjoin, hplan, hjoined, -⟩ :=
        exists_chain inherited_true hfault hopens
      exact .inr ⟨first, later, joined, hleaves, hjoin, hplan, finish_cases hfault hjoined⟩
    · refine .inl ⟨a, ha, hopen, reason, ?_⟩
      simp only [plan, hfault, hleaves, bind, Except.bind]

/-- The sum of `2 * y` over the pairs of rows that agree in their first field and differ in the
second. -/
def twiceBySecond : Query :=
  pairsByFirst ⟨"Q", [⟨"x"⟩], some ⟨[.const (.integer 2), .var ⟨"y"⟩]⟩⟩
    [⟨.var ⟨"y"⟩, .ne, .var ⟨"z"⟩⟩]

theorem plan_iff_valid_twiceBySecond :
    twiceBySecond.Valid Catalog.small ∧
    (∃ m, twiceBySecond.plan Catalog.smallStore Catalog.small = .ok m) ∧
    ∃ first later joined,
      twiceBySecond.leaves Catalog.smallStore Catalog.small = .ok (first :: later) ∧
        twiceBySecond.joinPending first twiceBySecond.joinComparisons later = .ok (joined, []) := by
  have hvalid : twiceBySecond.Valid Catalog.small := by decide
  have hopen : ∀ a ∈ twiceBySecond.atoms, Catalog.small.Opens Catalog.smallStore a.relation :=
    fun a ha => Catalog.opens_of_readable (readable_pairsByFirst _ _ a ha)
  have hsum : ∀ s ∈ twiceBySecond.head.sum?, ∀ text, .const (.string text) ∉ s.factors := by
    intro s hs text
    cases hs
    simp
  obtain ⟨hplan, hconstructed⟩ := plan_iff_valid Catalog.smallStore Catalog.small twiceBySecond
  refine ⟨hvalid, (hplan hsum fun a ha _ => hopen a ha).mpr hvalid, ?_⟩
  rcases hconstructed (fault?_eq_none_iff_valid.mpr hvalid) with
    ⟨a, ha, hclosed, -⟩ | ⟨first, later, joined, hleaves, hjoin, -⟩
  · exact absurd (hopen a ha) hclosed
  · exact ⟨first, later, joined, hleaves, hjoin⟩

end Query

end Conjunct
