import Conjunct.Proofs.Leaves

/-!
# What a plan denotes

A plan denotes a list of tuples, and perhaps an error that ends the list, by recursion over its
operators and without any state: the tuples on the lines of a file, the accepted tuples, all pairs
of a nested loop, the projections without repeats, the totals of a fold. Groups of a sum come in the
order of their first tuples.

The plans in question are those of machines that have just been put together, operator by operator,
from rows that are as long as their schemas (`Machine.Fresh`).

**Theorem (`Machine.Fresh.hasWidth`).** The tuples of such a plan are as long as its schema, so that
no position that an operator has located in the schema is ever missing.
-/

namespace Conjunct

/-! ## Lines -/

/-- Whether a line holds nothing but blanks. -/
def Line.isBlank : Line → Bool
  | .text content => content.all Text.isBlank
  | .undecodable => false

/-- The tuple on the line with the given number of the file at a path. -/
def Relation.readLine (r : Relation) (path : Path) : Line × Nat → Except EvalError Tuple
  | (.text content, number) => r.decode number content
  | (.undecodable, _) =>
    .error (.relationUnavailable path StorageError.notUtf8.message)

/-- The lines of the file to which a path leads. -/
def Storage.linesAt (store : Storage) (path : Path) : Except StorageError (List Line) := do
  (← store.openReader path).pending store

/-! ## Picking fields -/

/-- The fields of a tuple at the given positions. -/
def Tuple.pick (positions : List Nat) (t : Tuple) : Tuple :=
  positions.filterMap fun i => t[i]?

theorem Tuple.project?_eq_pick {t : Tuple} {positions : List Nat}
    (h : ∀ i ∈ positions, i < t.length) :
    t.project? positions = some (t.pick positions) ∧
      (t.pick positions).length = positions.length := by
  induction positions with
  | nil => exact ⟨rfl, rfl⟩
  | cons i positions ih =>
    obtain ⟨hproject, hlength⟩ := ih fun j hj => h j (List.mem_cons_of_mem i hj)
    obtain ⟨c, hc⟩ : ∃ c, t[i]? = some c :=
      ⟨_, List.getElem?_eq_getElem (h i List.mem_cons_self)⟩
    rw [project?] at hproject
    constructor
    · simp [project?, pick, List.mapM_cons, hc, hproject]
    · simpa [pick, hc] using hlength

/-! ## Sums as folds -/

namespace SumSpec

/-- The positions of the variables that name a group. -/
def positions (spec : SumSpec) : List Nat :=
  spec.group.map Prod.snd

/-- The totals once a further tuple has been taken in. -/
def takeIn (spec : SumSpec) (totals : Totals) (t : Tuple) : Except EvalError Totals :=
  match spec.product t with
  | .error e => .error e
  | .ok n =>
    match addTo? (t.pick spec.positions) n totals with
    | some totals' => .ok totals'
    | none => .error (.aggregateOverflow spec.aggregate.render)

end SumSpec

/-! ## Meanings -/

namespace Yield

/-- The results for some items, up to the first item that has none. -/
def results {α : Type} (f : α → Except EvalError Tuple) : List α → Yield
  | [] => ⟨[], none⟩
  | a :: rest =>
    match f a with
    | .ok t => cons t (results f rest)
    | .error e => failed e

/-- The tuples in a file: of its lines, which are numbered from one, those that are not blank. -/
def scanned (relation : Relation) (path : Path) : Except StorageError (List Line) → Yield
  | .ok lines =>
    results (relation.readLine path) ((lines.zipIdx 1).filter fun line => !line.1.isBlank)
  | .error e => failed (.relationUnavailable path e.message)

/-- The fields of the tuples at some positions, each list of fields where it occurs first. -/
def projected (positions : List Nat) (o : Yield) : Yield :=
  ⟨(o.tuples.map (Tuple.pick positions)).eraseDups, o.error?⟩

/-- The totals over all tuples, or the first error: of a tuple that is taken in, or else the one
that ends the tuples. -/
def summed (spec : SumSpec) (o : Yield) : Yield :=
  match o.tuples.foldlM spec.takeIn spec.initial with
  | .error e => failed e
  | .ok totals =>
    match o.error? with
    | some e => failed e
    | none => ⟨SumSpec.results totals, none⟩

end Yield

/-- The tuples of a plan, and the error that ends them, if one does. -/
def Plan.meaning (store : Storage) : Plan → Yield
  | scan relation path _ => .scanned relation path (store.linesAt path)
  | rows _ tuples => ⟨tuples, none⟩
  | select child predicates =>
    (child.meaning store).filter (accepts child.schema predicates)
  | join outer inner conditions =>
    .join (pairs conditions) (outer.meaning store) (inner.meaning store)
  | project child targets => (child.meaning store).projected (targets.map Prod.snd)
  | sum child spec => (child.meaning store).summed spec

/-- The relations that a plan scans, with the paths of their files. -/
def Plan.scans : Plan → List (Relation × Path)
  | scan relation path _ => [(relation, path)]
  | rows _ _ => []
  | select child _ | project child _ | sum child _ => child.scans
  | join outer inner _ => outer.scans ++ inner.scans

/-- A machine that has just been put together, from rows that are as long as their schemas. -/
inductive Machine.Fresh (store : Storage) : Machine → Prop
  | scan {relation : Relation} {path : Path} {atom : Atom} {m : Machine}
      (hwidth : relation.arity = atom.arity)
      (h : Machine.scan store relation path atom = .ok m) : Fresh store m
  | rows {atom : Atom} {tuples : List Tuple} (hwidth : ∀ t ∈ tuples, t.length = atom.arity) :
      Fresh store (Machine.rows atom tuples)
  | select {child m : Machine} {conditions : List Comparison} (hchild : Fresh store child)
      (h : child.select conditions = .ok m) : Fresh store m
  | join {outer inner : Machine} (houter : Fresh store outer) (hinner : Fresh store inner)
      (conditions : List Comparison) : Fresh store (outer.join inner conditions)
  | project {child m : Machine} {targets : List Variable} (hchild : Fresh store child)
      (h : child.project targets = .ok m) : Fresh store m
  | sum {child m : Machine} {group : List Variable} {aggregate : Aggregate}
      (hchild : Fresh store child) (h : child.sum group aggregate = .ok m) : Fresh store m

/-- What a machine yields from its state on. -/
def Machine.yields (store : Storage) (m : Machine) : Yield :=
  (m.plan.source store).yields m.state

theorem Machine.collect_eq_of_yields {store : Storage} {m : Machine} {o : Yield}
    (h : m.yields store = o) : (m.collect store).1 = (o.tuples, o.error?) := by
  rw [← h]
  exact (m.plan.source store).collect_eq_yields m.state

/-! ## What the constructors ensure -/

namespace Plan

/-- Located variables have positions inside the schema. -/
theorem lt_arity_of_locate {schema : Atom} {targets : List Variable} {ps : List (Variable × Nat)}
    (h : targets.mapM (locate schema) = .ok ps) : ∀ i ∈ ps.map Prod.snd, i < schema.arity := by
  intro i hi
  obtain ⟨p, hp, rfl⟩ := List.mem_map.mp hi
  obtain ⟨v, _, hv⟩ := exists_of_mem_mapM h p hp
  unfold locate at hv
  split at hv
  · next position hposition =>
    cases hv
    obtain ⟨hlt, _⟩ := List.findIdx?_eq_some_iff_getElem.mp hposition
    exact hlt
  · cases hv

theorem lt_arity_of_resolveSum {schema : Atom} {group : List Variable} {aggregate : Aggregate}
    {spec : SumSpec} (h : resolveSum schema group aggregate = .ok spec) :
    ∀ i ∈ spec.positions, i < schema.arity := by
  obtain ⟨-, hgroup, -⟩ := Machine.of_resolveSum h
  exact lt_arity_of_locate hgroup

end Plan

/-! ## Widths -/

namespace Yield

/-- All tuples have the given length. -/
def HasWidth (o : Yield) (n : Nat) : Prop :=
  ∀ t ∈ o.tuples, t.length = n

theorem mem_results {α : Type} {f : α → Except EvalError Tuple} {items : List α} {t : Tuple}
    (h : t ∈ (results f items).tuples) : ∃ a ∈ items, f a = .ok t := by
  induction items with
  | nil => cases h
  | cons a items ih =>
    rw [results] at h
    split at h
    · next u hu =>
      rcases List.mem_cons.mp h with rfl | h
      · exact ⟨a, List.mem_cons_self, hu⟩
      · obtain ⟨b, hb, heq⟩ := ih h
        exact ⟨b, List.mem_cons_of_mem a hb, heq⟩
    · cases h

theorem hasWidth_scanned (r : Relation) (path : Path) (lines : Except StorageError (List Line)) :
    (scanned r path lines).HasWidth r.arity := by
  intro t ht
  cases lines with
  | error e => cases ht
  | ok lines =>
    obtain ⟨⟨line, number⟩, _, hline⟩ := mem_results ht
    cases line with
    | undecodable => cases hline
    | text content =>
      have hkinds := congrArg List.length (Relation.kinds_of_decode hline)
      rw [List.length_map] at hkinds
      exact hkinds

theorem mem_join {holds : Tuple → Tuple → Bool} {outer inner : Yield} {t : Tuple}
    (h : t ∈ (join holds outer inner).tuples) :
    ∃ u ∈ outer.tuples, ∃ w ∈ inner.tuples, t = u ++ w := by
  unfold join at h
  generalize outer.error? = e at h
  generalize outer.tuples = us at h ⊢
  induction us with
  | nil => cases h
  | cons u us ih =>
    have hfirst : ∀ t ∈ (inner.pairedWith holds u).tuples, ∃ w ∈ inner.tuples, t = u ++ w := by
      intro t ht
      obtain ⟨w, hw, rfl⟩ := List.mem_map.mp ht
      exact ⟨w, List.mem_of_mem_filter hw, rfl⟩
    rw [List.foldr_cons, andThen] at h
    split at h
    · rcases List.mem_append.mp h with h | h
      · exact ⟨u, List.mem_cons_self, hfirst t h⟩
      · obtain ⟨u', hu', hw⟩ := ih h
        exact ⟨u', List.mem_cons_of_mem u hu', hw⟩
    · exact ⟨u, List.mem_cons_self, hfirst t h⟩

end Yield

namespace SumSpec

variable {spec : SumSpec}

theorem mem_addTo? {group : Tuple} {n : Integer} {totals totals' : Totals}
    (h : addTo? group n totals = some totals') :
    ∀ p ∈ totals', p.1 = group ∨ ∃ q ∈ totals, q.1 = p.1 := by
  induction totals generalizing totals' with
  | nil =>
    cases h
    simp
  | cons gm rest ih =>
    obtain ⟨g, m⟩ := gm
    rw [addTo?] at h
    split at h
    · next heq =>
      obtain ⟨total, _, rfl⟩ := Option.map_eq_some_iff.mp h
      refine List.forall_mem_cons.mpr ⟨.inl heq, fun p hp => ?_⟩
      exact .inr ⟨p, List.mem_cons_of_mem _ hp, rfl⟩
    · obtain ⟨rest', hrest, rfl⟩ := Option.map_eq_some_iff.mp h
      refine List.forall_mem_cons.mpr ⟨.inr ⟨_, List.mem_cons_self, rfl⟩, fun p hp => ?_⟩
      rcases ih hrest p hp with heq | ⟨q, hq, heq⟩
      · exact .inl heq
      · exact .inr ⟨q, List.mem_cons_of_mem _ hq, heq⟩

/-- Groups are named by as many values as there are variables for it. -/
theorem length_group_of_foldlM {ts : List Tuple} {totals totals' : Totals}
    (hpositions : ∀ t ∈ ts, ∀ i ∈ spec.positions, i < t.length)
    (htotals : ∀ p ∈ totals, p.1.length = spec.group.length)
    (h : ts.foldlM spec.takeIn totals = .ok totals') :
    ∀ p ∈ totals', p.1.length = spec.group.length := by
  induction ts generalizing totals with
  | nil =>
    cases h
    exact htotals
  | cons t ts ih =>
    rw [List.foldlM_cons] at h
    cases htake : spec.takeIn totals t with
    | error e => simp [htake, bind, Except.bind] at h
    | ok next =>
      rw [htake] at h
      refine ih (fun u hu => hpositions u (List.mem_cons_of_mem t hu)) (fun p hp => ?_) h
      unfold takeIn at htake
      split at htake
      · cases htake
      · split at htake
        · next hadd =>
          cases htake
          rcases mem_addTo? hadd p hp with heq | ⟨q, hq, heq⟩
          · rw [heq, (Tuple.project?_eq_pick (hpositions t List.mem_cons_self)).2, positions,
              List.length_map]
          · rw [← heq]
            exact htotals q hq
        · cases htake

theorem length_group_initial : ∀ p ∈ spec.initial, p.1.length = spec.group.length := by
  unfold initial
  split
  · next hnil => simp [hnil]
  · simp

end SumSpec

namespace Plan

variable {store : Storage}

/-- The tuples of a sum have a field for each variable of the group and one for the total. -/
theorem hasWidth_summed {spec : SumSpec} {o : Yield}
    (hpositions : ∀ t ∈ o.tuples, ∀ i ∈ spec.positions, i < t.length) :
    (o.summed spec).HasWidth spec.schema.arity := by
  intro t ht
  unfold Yield.summed at ht
  split at ht
  · cases ht
  · next totals hfold =>
    split at ht
    · cases ht
    · obtain ⟨p, hp, rfl⟩ := List.mem_map.mp ht
      have hlength := SumSpec.length_group_of_foldlM hpositions SumSpec.length_group_initial hfold
        p hp
      simp [SumSpec.schema, Atom.arity, hlength]

end Plan

/-- **The tuples of a plan are as long as its schema.** -/
theorem Machine.Fresh.hasWidth {store : Storage} {m : Machine} (h : m.Fresh store) :
    (m.plan.meaning store).HasWidth m.schema.arity := by
  induction h with
  | scan hwidth h =>
    obtain ⟨s, _, rfl⟩ := exists_of_map_eq_ok h
    intro t ht
    exact (Yield.hasWidth_scanned _ _ _ t ht).trans hwidth
  | rows hwidth => exact hwidth
  | select hchild h ih =>
    obtain ⟨ps, _, rfl⟩ := exists_of_map_eq_ok h
    exact fun t ht => ih t (List.mem_of_mem_filter ht)
  | @join outer inner _ _ conditions ihouter ihinner =>
    intro t ht
    obtain ⟨u, hu, w, hw, rfl⟩ := Yield.mem_join ht
    have hu := ihouter u hu
    have hw := ihinner w hw
    simp only [Machine.schema, Atom.arity] at hu hw
    simp [Machine.schema, Machine.join, Plan.schema, Atom.arity, hu, hw]
  | project hchild h ih =>
    obtain ⟨ps, hps, rfl⟩ := exists_of_map_eq_ok h
    intro t ht
    obtain ⟨u, hu, rfl⟩ := List.mem_map.mp (List.mem_eraseDups.mp ht)
    have hpositions : ∀ i ∈ ps.map Prod.snd, i < u.length := fun i hi =>
      (ih u hu).symm ▸ Plan.lt_arity_of_locate hps i hi
    rw [(Tuple.project?_eq_pick hpositions).2]
    simp [Machine.schema, Plan.schema, Atom.arity]
  | sum hchild h ih =>
    obtain ⟨spec, hspec, rfl⟩ := exists_of_map_eq_ok h
    exact Plan.hasWidth_summed fun t ht i hi =>
      (ih t ht).symm ▸ Plan.lt_arity_of_resolveSum hspec i hi

end Conjunct
