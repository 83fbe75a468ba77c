import Conjunct.Proofs.Validity

/-!
# What planning opens

Planning a query reads nothing but the files that its scans open. To say which files these are, the
planner is written once more, with a record of the paths that it opens (`Query.planOpening`): a path
is put on record before it is opened, whether or not it opens. The steps are those of `Query.plan`,
and the result is the same (`Query.records_plan`).

Leaves are made in the order of the atoms, and the first leaf that cannot be made ends this. So the
record is an initial segment of the paths of the atoms (`Query.isPrefix_opened`), and all of them if
the query is planned (`Query.opened_of_plan`).

**Theorem (`Query.plan_congr`).** Nothing but the files on record matters: if those are opened alike
in another storage, the query has the same plan there.
-/

namespace Conjunct

/-! ## Runs that reach an end or an error -/

section Reached

variable {α β ε : Type} {f g : α → Except ε β} {xs : List α}

/-- The elements of a list that are looked at: those up to the first that leads to an error. -/
def reached (f : α → Except ε β) : List α → List α
  | [] => []
  | x :: xs =>
    x :: match f x with
      | .ok _ => reached f xs
      | .error _ => []

theorem isPrefix_reached (f : α → Except ε β) (xs : List α) : reached f xs <+: xs := by
  induction xs with
  | nil => exact List.nil_prefix
  | cons x xs ih =>
    rw [reached, List.cons_prefix_cons]
    refine ⟨rfl, ?_⟩
    cases f x with
    | ok y => exact ih
    | error e => exact List.nil_prefix

theorem reached_of_mapM {ys : List β} (h : xs.mapM f = .ok ys) : reached f xs = xs := by
  have hall := mapM_eq_ok_iff.mp h
  clear h
  induction hall with
  | nil => rfl
  | cons hx _ ih => simp [reached, hx, ih]

/-- What is not reached does not matter. -/
theorem mapM_congr_reached (h : ∀ x ∈ reached f xs, g x = f x) : xs.mapM g = xs.mapM f := by
  induction xs with
  | nil => rfl
  | cons x xs ih =>
    rw [reached, List.forall_mem_cons] at h
    obtain ⟨hx, hxs⟩ := h
    rw [List.mapM_cons, List.mapM_cons, hx]
    cases hfx : f x with
    | error e => rfl
    | ok y =>
      rw [hfx] at hxs
      rw [ih hxs]

end Reached

/-! ## Keeping a record -/

/-- A computation that opens files, over the record of the paths opened so far. -/
abbrev Opening (ε α : Type) := ExceptT ε (StateM (List Path)) α

namespace Opening

variable {ε α β : Type}

/-- Compute without opening a file. -/
def step (outcome : Except ε α) : Opening ε α :=
  ExceptT.mk (pure outcome)

/-- Compute by opening the file at a path. -/
def opening (path : Path) (outcome : Except ε α) : Opening ε α := do
  modify (· ++ [path])
  step outcome

/-- A computation comes to an outcome and puts some paths on record. -/
def Records (x : Opening ε α) (outcome : Except ε α) (paths : List Path) : Prop :=
  ∀ record, x.run.run record = (outcome, record ++ paths)

theorem records_step (outcome : Except ε α) : Records (step outcome) outcome [] :=
  fun record => by rw [List.append_nil]; rfl

theorem records_opening (path : Path) (outcome : Except ε α) :
    Records (opening path outcome) outcome [path] :=
  fun _ => rfl

theorem run_bind (x : Opening ε α) (f : α → Opening ε β) (record : List Path) :
    (x >>= f).run.run record = ExceptT.bindCont f (x.run.run record).1 (x.run.run record).2 :=
  rfl

namespace Records

variable {x : Opening ε α} {f : α → Opening ε β} {paths paths' : List Path} {a : α} {e : ε}
  {outcome : Except ε β}

theorem bind_ok (h : Records x (.ok a) paths) (hf : Records (f a) outcome paths') :
    Records (x >>= f) outcome (paths ++ paths') := by
  intro record
  rw [run_bind, h record, ← List.append_assoc]
  exact hf (record ++ paths)

theorem bind_error (h : Records x (.error e) paths) (f : α → Opening ε β) :
    Records (x >>= f) (.error e) paths := by
  intro record
  rw [run_bind, h record]
  rfl

/-- What follows without opening files adds nothing to the record. -/
theorem bind {y : Except ε α} {g : α → Except ε β} (h : Records x y paths)
    (hf : ∀ a, Records (f a) (g a) []) : Records (x >>= f) (y >>= g) paths := by
  cases y with
  | error e => exact h.bind_error f
  | ok a =>
    have hboth := h.bind_ok (hf a)
    rwa [List.append_nil] at hboth

/-- A list is run through up to the first error, and the record is kept up to there. -/
theorem mapM {f : α → Opening ε β} {g : α → Except ε β} {path : α → Path} {xs : List α}
    (h : ∀ x ∈ xs, Records (f x) (g x) [path x]) :
    Records (xs.mapM f) (xs.mapM g) ((reached g xs).map path) := by
  induction xs with
  | nil => exact records_step (.ok [])
  | cons x xs ih =>
    obtain ⟨hx, hxs⟩ := List.forall_mem_cons.mp h
    rw [List.mapM_cons, List.mapM_cons, reached]
    cases hgx : g x with
    | error e =>
      rw [hgx] at hx
      exact hx.bind_error _
    | ok y =>
      rw [hgx] at hx
      exact hx.bind_ok ((ih hxs).bind fun ys => records_step (.ok (y :: ys)))

end Records

end Opening

/-! ## Planning on record -/

namespace Query

open Opening

variable {store other : Storage} {catalog : Catalog} {q : Query} {a : Atom}

/-- The leaf for an atom, with its path on record. -/
def leafOpening (store : Storage) (catalog : Catalog) (a : Atom) (selections : List Comparison) :
    Opening PlanError Machine :=
  match catalog.relation? a.relation with
  | none => step (.error (.unknownRelation a.relation))
  | some r => do
    let scan ← opening (catalog.relationPath a.relation)
      ((Machine.scan store r (catalog.relationPath a.relation) a).mapError
        (.operatorFailed ("Scan " ++ a.render)))
    if a.hasConstant ∨ a.hasRepeatedVariable ∨ selections ≠ [] then
      step ((scan.select selections).mapError (.operatorFailed ("Select " ++ a.render)))
    else
      step (.ok scan)

/-- The leaves of a query, with their paths on record. -/
def leavesOpening (store : Storage) (catalog : Catalog) (q : Query) :
    Opening PlanError (List Machine) :=
  q.atoms.zipIdx.mapM fun (a, position) => leafOpening store catalog a (q.selectionsAt position a)

/-- Plan a query, and keep a record of the paths that are opened for it. -/
def planOpening (store : Storage) (catalog : Catalog) (q : Query) : Opening PlanError Machine :=
  match q.fault? catalog with
  | some e => step (.error e)
  | none => do
    match ← q.leavesOpening store catalog with
    | [] => step (.error .emptyBody)
    | first :: later =>
      let joined ← step (q.joinLeaves first q.joinComparisons later)
      step (q.finish joined)

/-- The paths that are opened when a query is planned, in this order. -/
def opened (store : Storage) (catalog : Catalog) (q : Query) : List Path :=
  ((q.planOpening store catalog).run.run []).2

theorem records_leaf {r : Relation} (hr : catalog.relation? a.relation = some r)
    (selections : List Comparison) :
    Records (leafOpening store catalog a selections) (leaf store catalog a selections)
      [catalog.relationPath a.relation] := by
  rw [leafOpening, leaf, hr]
  refine (records_opening _ _).bind fun scan => ?_
  split
  · exact records_step _
  · exact records_step _

/-- The atoms whose leaves are made or tried, with their positions. -/
def leavesReached (store : Storage) (catalog : Catalog) (q : Query) : List (Atom × Nat) :=
  reached (fun (a, position) => leaf store catalog a (q.selectionsAt position a)) q.atoms.zipIdx

/-- **Planning on record is planning**, and what is on record are the paths of the leaves that are
made or tried, if the query passes its checks. -/
theorem records_plan (store : Storage) (catalog : Catalog) (q : Query) :
    Records (q.planOpening store catalog) (q.plan store catalog)
      (if q.fault? catalog = none then
        (q.leavesReached store catalog).map fun leaf => catalog.relationPath leaf.1.relation
      else []) := by
  rw [planOpening, plan]
  cases hfault : q.fault? catalog with
  | some e => exact records_step _
  | none =>
    rw [if_pos rfl]
    have hleaves : Records (q.leavesOpening store catalog) (q.leaves store catalog)
        ((q.leavesReached store catalog).map fun leaf =>
          catalog.relationPath leaf.1.relation) := by
      refine Records.mapM ?_
      rintro ⟨a, position⟩ hmem
      have ha : a ∈ q.atoms := List.mem_of_getElem? (List.mem_zipIdx_iff_getElem?.mp hmem)
      obtain ⟨_, hatoms, _, _⟩ := fault?_eq_none_iff.mp hfault
      obtain ⟨r, hr, -⟩ := exists_relation_of_atomFault? (hatoms a ha)
      exact records_leaf hr _
    refine hleaves.bind fun ms => ?_
    cases ms with
    | nil => exact records_step _
    | cons first later => exact (records_step _).bind fun joined => records_step _

theorem opened_eq (store : Storage) (catalog : Catalog) (q : Query) :
    q.opened store catalog = if q.fault? catalog = none then
      (q.leavesReached store catalog).map fun leaf => catalog.relationPath leaf.1.relation
    else [] := by
  rw [opened, records_plan store catalog q []]
  rfl

theorem records_opened (store : Storage) (catalog : Catalog) (q : Query) :
    Records (q.planOpening store catalog) (q.plan store catalog) (q.opened store catalog) :=
  opened_eq store catalog q ▸ records_plan store catalog q

theorem map_zipIdx_atoms (catalog : Catalog) (q : Query) :
    (q.atoms.zipIdx.map fun leaf => catalog.relationPath leaf.1.relation) =
      q.atoms.map fun a => catalog.relationPath a.relation := by
  conv_rhs => rw [← List.zipIdx_map_fst 0 q.atoms, List.map_map]
  rfl

/-- **What is opened** are the paths of the first atoms, one for each of them. -/
theorem isPrefix_opened (store : Storage) (catalog : Catalog) (q : Query) :
    q.opened store catalog <+: q.atoms.map fun a => catalog.relationPath a.relation := by
  rw [opened_eq]
  split
  · rw [← map_zipIdx_atoms]
    exact (isPrefix_reached _ _).map _
  · exact List.nil_prefix

/-- What is opened belongs to an atom of a declared relation. -/
theorem exists_of_mem_opened {path : Path} (h : path ∈ q.opened store catalog) :
    ∃ a ∈ q.atoms, (∃ r, catalog.relation? a.relation = some r) ∧
      path = catalog.relationPath a.relation := by
  obtain ⟨a, ha, rfl⟩ := List.mem_map.mp ((isPrefix_opened store catalog q).subset h)
  have hfault : q.fault? catalog = none := by
    by_contra hfault
    rw [opened_eq, if_neg hfault] at h
    cases h
  obtain ⟨_, hatoms, _, _⟩ := fault?_eq_none_iff.mp hfault
  obtain ⟨r, hr, -⟩ := exists_relation_of_atomFault? (hatoms a ha)
  exact ⟨a, ha, ⟨r, hr⟩, rfl⟩

/-- A query that is planned has had the paths of all its atoms opened. -/
theorem opened_of_plan {root : Machine} (h : q.plan store catalog = .ok root) :
    q.opened store catalog = q.atoms.map fun a => catalog.relationPath a.relation := by
  have hfault := fault?_of_plan h
  simp only [plan, hfault] at h
  obtain ⟨ms, hleaves, -⟩ := exists_of_bind_eq_ok h
  rw [opened_eq, if_pos hfault, leavesReached, reached_of_mapM hleaves, map_zipIdx_atoms]

/-- **Nothing but the opened files matters for the plan.** -/
theorem plan_congr
    (h : ∀ path ∈ q.opened store catalog, other.openReader path = store.openReader path) :
    q.plan other catalog = q.plan store catalog := by
  rw [plan, plan]
  cases hfault : q.fault? catalog with
  | some e => rfl
  | none =>
    rw [opened_eq, if_pos hfault, List.forall_mem_map] at h
    have hleaves : q.leaves other catalog = q.leaves store catalog := by
      refine mapM_congr_reached ?_
      rintro ⟨a, position⟩ hmem
      have hopen : other.openReader (catalog.relationPath a.relation) =
          store.openReader (catalog.relationPath a.relation) := h (a, position) hmem
      have hscan : ∀ r, Machine.scan other r (catalog.relationPath a.relation) a =
          Machine.scan store r (catalog.relationPath a.relation) a := by
        intro r
        rw [Machine.scan, Source.openScan, hopen]
        rfl
      simp only [leaf, hscan]
    simp only [hleaves]

end Query

end Conjunct
