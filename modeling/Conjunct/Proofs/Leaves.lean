import Conjunct.Proofs.Machine

/-!
# Leaves

A leaf of a plan shows the solutions of its atom alone (`exists_leaf`): a scan yields the rows of
the relation, and the selection on top of it, if there is one, keeps those that are the value of
the atom under a valuation which satisfies the selected comparisons. Without a constant, a repeated
variable or a comparison, every row is such a value, and no selection is needed.
-/

namespace Conjunct

/-! ## The solutions of one atom -/

open Classical in
/-- The solutions of one atom stand for the rows that fit the atom and the comparisons. -/
theorem map_value_solutions (table : String → List Tuple) (a : Atom) (cs : List Comparison) :
    (solutions table [a] cs).map (fun ν => a.value ν) =
      (table a.relation).filter fun t =>
        decide (∃ ν, a.value ν = t ∧ ∀ c ∈ cs, c.holdsIn ν = true) := by
  rw [solutions, List.map_singleton, combinations_singleton, List.filterMap_map,
    List.map_filterMap, ← List.filterMap_eq_filter]
  refine congrArg (List.filterMap · _) (funext fun t => ?_)
  show (solution? [a] cs [t]).map (fun ν => a.value ν) = _
  cases hν : solution? [a] cs [t] with
  | none =>
    have hno : ¬ ∃ ν, a.value ν = t ∧ ∀ c ∈ cs, c.holdsIn ν = true := by
      rintro ⟨ν, rfl, hcs⟩
      exact solution?_eq_none_iff.mp hν ν ⟨rfl, hcs⟩
    simp [Option.guard, hno]
  | some ν =>
    have hsat := satisfies_of_solution? hν
    have hvalue : a.value ν = t := List.singleton_inj.mp hsat.rows
    have hex : ∃ ν, a.value ν = t ∧ ∀ c ∈ cs, c.holdsIn ν = true :=
      ⟨ν, hvalue, hsat.comparisons⟩
    rw [Option.guard, if_pos (decide_eq_true hex), Option.map_some, hvalue]

/-! ## Leaves -/

section

variable {store : Storage} {catalog : Catalog} {a : Atom} {cs : List Comparison}

theorem exists_relation_of_atomFault? (h : Query.atomFault? catalog a = none) :
    ∃ r, catalog.relation? a.relation = some r ∧ r.arity = a.arity := by
  unfold Query.atomFault? at h
  split at h
  · cases h
  · next r hr =>
    split at h
    · next harity => exact ⟨r, hr, harity⟩
    · cases h

/-- A leaf whose file opens and whose comparisons are about its atom can be made, and shows the
solutions of the atom. -/
theorem exists_leaf (hfault : Query.atomFault? catalog a = none)
    (hopen : catalog.Opens store a.relation) (hcs : ∀ c ∈ cs, ∀ v ∈ c.vars, v ∈ a.vars) :
    ∃ m, Query.leaf store catalog a cs = .ok m ∧ m.schema = a ∧
      (catalog.Readable store a.relation →
        m.Shows store true (solutions (catalog.table store) [a] cs)) := by
  classical
  obtain ⟨r, hr, harity⟩ := exists_relation_of_atomFault? hfault
  obtain ⟨reader, hreader⟩ := hopen
  have hscan : Source.openScan store (catalog.relationPath a.relation) = .ok ⟨reader, 0⟩ := by
    rw [Source.openScan, hreader]
  let scan : Machine := ⟨.scan r (catalog.relationPath a.relation) a, ⟨reader, 0⟩⟩
  have hmake : Machine.scan store r (catalog.relationPath a.relation) a = .ok scan := by
    rw [Machine.scan, hscan]
    rfl
  have hreplays : catalog.Readable store a.relation →
      scan.Replays store ⟨catalog.table store a.relation, none⟩ := fun hread =>
    Catalog.replays_scan_of_readable hr hread hscan
  have hlen : ∀ t ∈ catalog.table store a.relation, t.length = a.arity := fun t ht =>
    (Catalog.length_of_mem_table hr ht).trans harity
  by_cases hselect : a.hasConstant = true ∨ a.hasRepeatedVariable = true ∨ cs ≠ []
  · have hcs' : ∀ c ∈ cs, ∀ v ∈ c.vars, v ∈ scan.schema.vars := hcs
    obtain ⟨m, ps, hm, hschema, hps, hfilter⟩ := Machine.exists_select hcs'
    refine ⟨m, ?_, hschema, fun hread => ⟨_, hfilter store _ (hreplays hread), ?_⟩⟩
    · simp only [Query.leaf, hr, hmake, Except.mapError, bind, Except.bind, if_pos hselect, hm]
    · apply Alike.of_eq
      rw [hschema]
      show _ = (solutions (catalog.table store) [a] cs).map fun ν => a.value ν
      rw [map_value_solutions]
      refine List.filter_congr fun t ht => ?_
      rw [Bool.eq_iff_iff, decide_eq_true_iff]
      exact Plan.accepts_iff_exists hps (hlen t ht)
  · refine ⟨scan, ?_, rfl, fun hread => ⟨_, hreplays hread, ?_⟩⟩
    · simp only [Query.leaf, hr, hmake, Except.mapError, bind, Except.bind, if_neg hselect]
    · apply Alike.of_eq
      show _ = (solutions (catalog.table store) [a] cs).map fun ν => a.value ν
      rw [map_value_solutions, eq_comm, List.filter_eq_self]
      intro t ht
      push Not at hselect
      obtain ⟨hconst, hrepeat, rfl⟩ := hselect
      obtain ⟨ν, hν⟩ := Atom.exists_value_of_plain (hlen t ht) (by simpa using hconst)
        (by simpa using hrepeat)
      exact decide_eq_true ⟨ν, hν, by simp⟩

end

end Conjunct
