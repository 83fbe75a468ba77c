import Conjunct.Proofs.Joining

/-!
# Answers

A query without a sum asks for the values of the head's variables under its solutions, each list
of values once and in the order of the solutions. These are its *answers*, whatever the plan.

**Theorem (`collect_eq_answers`).** If the relations of a query are readable, its plan yields the
answers and no error.
-/

namespace Conjunct

namespace Query

/-- The values of the head's variables under the solutions, each list of values where it occurs
first. -/
noncomputable def answers (q : Query) (table : String → List Tuple) : List Tuple :=
  ((solutions table q.atoms q.comparisons).map fun ν => q.head.outputs.map ν).eraseDups

section

variable {store : Storage} {catalog : Catalog} {q : Query} {m : Machine}

theorem fault?_of_plan (h : q.plan store catalog = .ok m) : q.fault? catalog = none := by
  unfold plan at h
  split at h
  · cases h
  · next hfault => exact hfault

/-- A plan consists of joined leaves and what the head asks for on top of them. -/
theorem exists_joined_of_plan (h : q.plan store catalog = .ok m)
    (hread : ∀ a ∈ q.atoms, catalog.Readable store a.relation) :
    ∃ joined, q.finish joined = .ok m ∧
      (∀ v ∈ boundIn q.atoms, q.head.sum?.isSome = true ∨ v ∈ q.head.outputs →
        v ∈ joined.schema.vars) ∧
      joined.Shows store q.head.sum?.isSome
        (solutions (catalog.table store) q.atoms q.comparisons) := by
  have hfault := fault?_of_plan h
  obtain ⟨joined, hfinish, hjoined⟩ :=
    exists_joined hfault fun a ha => Catalog.opens_of_readable (hread a ha)
  exact ⟨joined, hfinish ▸ h, fun v hv hw => hjoined.kept v hv (hw.imp_right .inl),
    hjoined.shows_solutions hfault hread⟩

/-- Without a sum, a query in order has a plan. -/
theorem exists_plan (hsum : q.head.sum? = none) (hfault : q.fault? catalog = none)
    (hopen : ∀ a ∈ q.atoms, catalog.Opens store a.relation) :
    ∃ m, q.plan store catalog = .ok m := by
  obtain ⟨joined, hplan, hjoined⟩ := exists_joined hfault hopen
  obtain ⟨_, _, hhead, _⟩ := fault?_eq_none_iff.mp hfault
  have houtputs : ∀ v ∈ q.head.outputs, v ∈ joined.schema.vars := fun v hv =>
    hjoined.kept v (hhead v (mem_distinguished.mpr (.inl hv))) (.inr (.inl hv))
  obtain ⟨root, hroot, _, _⟩ := Machine.exists_project houtputs
  exact ⟨root, by simp [hplan, finish, hsum, hroot, Except.mapError]⟩

theorem replays_answers (hsum : q.head.sum? = none)
    (hread : ∀ a ∈ q.atoms, catalog.Readable store a.relation)
    (hplan : q.plan store catalog = .ok m) :
    m.Replays store ⟨q.answers (catalog.table store), none⟩ := by
  obtain ⟨joined, hfinish, hvars, hshows⟩ := exists_joined_of_plan hplan hread
  obtain ⟨_, _, hhead, _⟩ := fault?_eq_none_iff.mp (fault?_of_plan hplan)
  have houtputs : ∀ v ∈ q.head.outputs, v ∈ joined.schema.vars := fun v hv =>
    hvars v (hhead v (mem_distinguished.mpr (.inl hv))) (.inr hv)
  obtain ⟨root, hroot, _, hreplays⟩ := Machine.exists_project houtputs
  have heq : m = root := by
    rw [finish, hsum] at hfinish
    simpa [hroot, Except.mapError] using hfinish.symm
  rw [heq]
  exact hreplays store _ _ hshows

/-- **A plan without a sum yields the answers of its query**, in the order of the solutions, and no
error. -/
theorem collect_eq_answers (hsum : q.head.sum? = none)
    (hread : ∀ a ∈ q.atoms, catalog.Readable store a.relation)
    (hplan : q.plan store catalog = .ok m) :
    (m.collect store).1 = (q.answers (catalog.table store), none) :=
  Machine.collect_eq_of_replays (replays_answers hsum hread hplan)

end

/-- The pairs of rows that agree in their first field. -/
def pairsByFirst (head : Head) (cs : List Comparison) : Query :=
  ⟨head, .atom ⟨"R", [.var ⟨"x"⟩, .var ⟨"y"⟩]⟩ :: .atom ⟨"R", [.var ⟨"x"⟩, .var ⟨"z"⟩]⟩ ::
    cs.map .comparison⟩

theorem atoms_pairsByFirst (head : Head) (cs : List Comparison) :
    (pairsByFirst head cs).atoms =
      [⟨"R", [.var ⟨"x"⟩, .var ⟨"y"⟩]⟩, ⟨"R", [.var ⟨"x"⟩, .var ⟨"z"⟩]⟩] := by
  have hnone : (cs.map Literal.comparison).filterMap Literal.atom? = [] := by
    simp [List.filterMap_map, Literal.atom?]
  simp [atoms, pairsByFirst, Literal.atom?, hnone]

theorem readable_pairsByFirst (head : Head) (cs : List Comparison) :
    ∀ a ∈ (pairsByFirst head cs).atoms,
      Catalog.small.Readable Catalog.smallStore a.relation := by
  rw [atoms_pairsByFirst]
  intro a ha
  simp only [List.mem_cons, List.not_mem_nil, or_false] at ha
  rcases ha with rfl | rfl
  all_goals exact Catalog.readable_small

theorem collect_eq_answers_pairsByFirst :
    ∃ m, (pairsByFirst ⟨"Q", [⟨"y"⟩, ⟨"z"⟩], none⟩ [⟨.var ⟨"y"⟩, .lt, .var ⟨"z"⟩⟩]).plan
        Catalog.smallStore Catalog.small = .ok m ∧
      (m.collect Catalog.smallStore).1 =
        ((pairsByFirst ⟨"Q", [⟨"y"⟩, ⟨"z"⟩], none⟩ [⟨.var ⟨"y"⟩, .lt, .var ⟨"z"⟩⟩]).answers
          (Catalog.small.table Catalog.smallStore), none) ∧
      (m.collect Catalog.smallStore).1 = ([[.integer 2, .integer 3]], none) := by
  refine ⟨_, rfl, collect_eq_answers rfl (readable_pairsByFirst _ _) rfl, ?_⟩
  apply Machine.collect_eq_of_replays (o := ⟨[[.integer 2, .integer 3]], none⟩)
  exact Source.replays_distinct
    (Source.replays_join (Source.replays_scan _ rfl) (Source.replays_scan _ rfl) _) _

end Query

end Conjunct
