import Conjunct.Plan.OfQuery
import Conjunct.Proofs.Valuation

/-!
# Solutions

What a query asks for, without any plan: choose one row for each atom, in all possible ways, and
keep the choices for which some valuation turns the atoms into the rows and satisfies the
comparisons. A valuation that does this is a *solution*. Solutions are listed in the order of the
choices, where the row of the first atom varies slowest, and as often as there are choices.

Only what a solution says of the variables that occur in the atoms is determined. So a function of
solutions is looked at only if it depends on no others.

**Theorem (`map_solutions_append`).** The solutions for some atoms and further ones are found by a
nested loop: for each solution of the former, the solutions of the latter that go with it.
-/

namespace Conjunct

/-! ## Choosing rows -/

/-- All ways to choose one row from each list, where the first choice varies slowest. -/
def combinations : List (List Tuple) → List (List Tuple)
  | [] => [[]]
  | rows :: rest => rows.flatMap fun t => (combinations rest).map (t :: ·)

theorem combinations_singleton (rows : List Tuple) : combinations [rows] = rows.map ([·]) := by
  simp [combinations, List.map_eq_flatMap]

theorem combinations_append (lists lists' : List (List Tuple)) :
    combinations (lists ++ lists') =
      (combinations lists).flatMap fun chosen => (combinations lists').map (chosen ++ ·) := by
  induction lists with
  | nil => simp [combinations]
  | cons rows lists ih =>
    rw [List.cons_append, combinations, combinations, ih, List.flatMap_assoc]
    refine congrArg (rows.flatMap ·) (funext fun t => ?_)
    simp [List.map_flatMap, List.flatMap_map, Function.comp_def]

theorem mem_combinations {lists : List (List Tuple)} {chosen : List Tuple} :
    chosen ∈ combinations lists ↔ List.Forall₂ (fun t rows => t ∈ rows) chosen lists := by
  induction lists generalizing chosen with
  | nil => simp [combinations]
  | cons rows lists ih =>
    simp only [combinations, List.mem_flatMap, List.mem_map, ih]
    constructor
    · rintro ⟨t, ht, rest, hrest, rfl⟩
      exact .cons ht hrest
    · intro h
      cases h with
      | cons ht hrest => exact ⟨_, ht, _, hrest, rfl⟩

/-! ## Solutions -/

/-- The variables that occur in some atoms. -/
def boundIn (atoms : List Atom) : List Variable :=
  atoms.flatMap Atom.vars

theorem mem_boundIn {atoms : List Atom} {v : Variable} :
    v ∈ boundIn atoms ↔ ∃ a ∈ atoms, v ∈ a.vars :=
  List.mem_flatMap

/-- A valuation turns atoms into the chosen rows and satisfies comparisons. -/
structure Satisfies (atoms : List Atom) (cs : List Comparison) (chosen : List Tuple)
    (ν : Valuation) : Prop where
  rows : atoms.map (Atom.value ν) = chosen
  comparisons : ∀ c ∈ cs, c.holdsIn ν = true

open Classical in
/-- A valuation that satisfies atoms and comparisons with the chosen rows, if there is one. -/
noncomputable def solution? (atoms : List Atom) (cs : List Comparison) (chosen : List Tuple) :
    Option Valuation :=
  if h : ∃ ν, Satisfies atoms cs chosen ν then some h.choose else none

/-- The solutions for all ways to choose rows; `table` says which rows a relation has. -/
noncomputable def solutions (table : String → List Tuple) (atoms : List Atom)
    (cs : List Comparison) : List Valuation :=
  (combinations (atoms.map fun a => table a.relation)).filterMap (solution? atoms cs)

section

variable {atoms : List Atom} {cs cs' : List Comparison} {chosen : List Tuple}

theorem satisfies_of_solution? {ν : Valuation} (h : solution? atoms cs chosen = some ν) :
    Satisfies atoms cs chosen ν := by
  unfold solution? at h
  split at h
  · next hex =>
    cases h
    exact hex.choose_spec
  · cases h

theorem solution?_eq_none_iff :
    solution? atoms cs chosen = none ↔ ∀ ν, ¬ Satisfies atoms cs chosen ν := by
  unfold solution?
  split
  · next hex => simpa using hex
  · next hno => simpa using hno

/-- Two valuations that turn atoms into the same rows agree on the variables in them. -/
theorem eqOn_of_map_value_eq {ν μ : Valuation}
    (h : atoms.map (Atom.value ν) = atoms.map (Atom.value μ)) :
    ∀ v ∈ boundIn atoms, ν v = μ v := by
  intro v hv
  obtain ⟨a, ha, hva⟩ := mem_boundIn.mp hv
  exact Atom.value_eq_value_iff.mp (List.map_inj_left.mp h a ha) v hva

theorem map_value_congr {ν μ : Valuation} (h : ∀ v ∈ boundIn atoms, ν v = μ v) :
    atoms.map (Atom.value ν) = atoms.map (Atom.value μ) :=
  List.map_congr_left fun a ha =>
    Atom.value_eq_value_iff.mpr fun v hv => h v (mem_boundIn.mpr ⟨a, ha, hv⟩)

/-- The solution that is found agrees with every other on the variables in the atoms. -/
theorem exists_solution? {ν : Valuation} (h : Satisfies atoms cs chosen ν) :
    ∃ μ, solution? atoms cs chosen = some μ ∧ ∀ v ∈ boundIn atoms, μ v = ν v := by
  cases hsol : solution? atoms cs chosen with
  | none => exact absurd h (solution?_eq_none_iff.mp hsol ν)
  | some μ =>
    have hμ := satisfies_of_solution? hsol
    exact ⟨μ, rfl, eqOn_of_map_value_eq (hμ.rows.trans h.rows.symm)⟩

theorem solution?_congr {atoms' : List Atom} {chosen' : List Tuple}
    (h : ∀ ν, Satisfies atoms cs chosen ν ↔ Satisfies atoms' cs' chosen' ν) :
    solution? atoms cs chosen = solution? atoms' cs' chosen' := by
  have hsat : Satisfies atoms cs chosen = Satisfies atoms' cs' chosen' :=
    funext fun ν => propext (h ν)
  unfold solution?
  rw [hsat]

theorem map_value_mem_combinations {table : String → List Tuple} {ν : Valuation} :
    atoms.map (Atom.value ν) ∈ combinations (atoms.map fun a => table a.relation) ↔
      ∀ a ∈ atoms, a.value ν ∈ table a.relation := by
  rw [mem_combinations, List.forall₂_map_left_iff, List.forall₂_map_right_iff,
    List.forall₂_same]

/-- A solution turns the atoms into rows and satisfies the comparisons. -/
theorem of_mem_solutions {table : String → List Tuple} {ν : Valuation}
    (h : ν ∈ solutions table atoms cs) :
    (∀ a ∈ atoms, a.value ν ∈ table a.relation) ∧ ∀ c ∈ cs, c.holdsIn ν = true := by
  obtain ⟨chosen, hchosen, hν⟩ := List.mem_filterMap.mp h
  have hsat := satisfies_of_solution? hν
  rw [← hsat.rows] at hchosen
  exact ⟨map_value_mem_combinations.mp hchosen, hsat.comparisons⟩

/-- A valuation that turns the atoms into rows and satisfies the comparisons is a solution, as far
as the variables in the atoms go. -/
theorem exists_mem_solutions {table : String → List Tuple} {ν : Valuation}
    (hrows : ∀ a ∈ atoms, a.value ν ∈ table a.relation) (hcs : ∀ c ∈ cs, c.holdsIn ν = true) :
    ∃ μ ∈ solutions table atoms cs, ∀ v ∈ boundIn atoms, μ v = ν v := by
  obtain ⟨μ, hμ, heq⟩ := exists_solution? ⟨rfl, hcs⟩
  exact ⟨μ, List.mem_filterMap.mpr ⟨_, map_value_mem_combinations.mpr hrows, hμ⟩, heq⟩

end

/-! ## Further atoms -/

section Append

variable {γ : Type} {atoms further : List Atom} {cs es ds all : List Comparison}

/-- The comparisons `all` say the same as those decided by the earlier atoms, by the further atoms,
and by both together. -/
structure Splits (atoms further : List Atom) (all cs es ds : List Comparison) : Prop where
  iff : ∀ ν, (∀ c ∈ all, c.holdsIn ν = true) ↔
    (∀ c ∈ cs, c.holdsIn ν = true) ∧ (∀ c ∈ es, c.holdsIn ν = true) ∧
      ∀ c ∈ ds, c.holdsIn ν = true
  ofEarlier : ∀ c ∈ cs, ∀ v ∈ c.vars, v ∈ boundIn atoms
  ofFurther : ∀ c ∈ es, ∀ v ∈ c.vars, v ∈ boundIn further
  ofBoth : ∀ c ∈ ds, ∀ v ∈ c.vars, v ∈ boundIn (atoms ++ further)

/-- Two valuations have a common one that satisfies some comparisons. -/
def Meet (atoms further : List Atom) (ds : List Comparison) (ν μ : Valuation) : Prop :=
  ∃ ξ, (∀ v ∈ boundIn atoms, ν v = ξ v) ∧ (∀ v ∈ boundIn further, μ v = ξ v) ∧
    ∀ c ∈ ds, c.holdsIn ξ = true

theorem boundIn_append {v : Variable} :
    v ∈ boundIn (atoms ++ further) ↔ v ∈ boundIn atoms ∨ v ∈ boundIn further := by
  simp [boundIn]

theorem boundIn_singleton {a : Atom} {v : Variable} : v ∈ boundIn [a] ↔ v ∈ a.vars := by
  simp [boundIn]

theorem satisfies_append_iff (hsplit : Splits atoms further all cs es ds)
    {chosen chosen' : List Tuple} (hlen : chosen'.length = further.length) {ξ : Valuation} :
    Satisfies (atoms ++ further) all (chosen ++ chosen') ξ ↔
      Satisfies atoms cs chosen ξ ∧ Satisfies further es chosen' ξ ∧
        ∀ c ∈ ds, c.holdsIn ξ = true := by
  have hrows : (atoms ++ further).map (Atom.value ξ) = chosen ++ chosen' ↔
      atoms.map (Atom.value ξ) = chosen ∧ further.map (Atom.value ξ) = chosen' := by
    rw [List.map_append]
    exact ⟨fun h => List.append_inj' h (by rw [List.length_map, hlen]),
      fun ⟨h, h'⟩ => by rw [h, h']⟩
  constructor
  · intro h
    obtain ⟨hcs, hes, hds⟩ := (hsplit.iff ξ).mp h.comparisons
    obtain ⟨hearlier, hfurther⟩ := hrows.mp h.rows
    exact ⟨⟨hearlier, hcs⟩, ⟨hfurther, hes⟩, hds⟩
  · rintro ⟨hearlier, hfurther, hds⟩
    exact ⟨hrows.mpr ⟨hearlier.rows, hfurther.rows⟩,
      (hsplit.iff ξ).mpr ⟨hearlier.comparisons, hfurther.comparisons, hds⟩⟩

theorem Satisfies.congr {chosen : List Tuple} {ν ξ : Valuation}
    (h : Satisfies atoms cs chosen ν) (hcs : ∀ c ∈ cs, ∀ v ∈ c.vars, v ∈ boundIn atoms)
    (heq : ∀ v ∈ boundIn atoms, ν v = ξ v) : Satisfies atoms cs chosen ξ :=
  ⟨(map_value_congr heq).symm.trans h.rows, fun c hc =>
    (Comparison.holdsIn_congr fun v hv => heq v (hcs c hc v hv)).symm.trans (h.comparisons c hc)⟩

/-- The solution for rows and further rows is put together from the solutions for the two. -/
theorem map_solution?_append (hsplit : Splits atoms further all cs es ds) {f : Valuation → γ}
    {g : Valuation → Valuation → γ}
    (hg : ∀ ν μ ξ, (∀ v ∈ boundIn atoms, ν v = ξ v) → (∀ v ∈ boundIn further, μ v = ξ v) →
      g ν μ = f ξ)
    {ok : Valuation → Valuation → Bool} (hok : ∀ ν μ, ok ν μ = true ↔ Meet atoms further ds ν μ)
    (chosen : List Tuple) {chosen' : List Tuple} (hlen : chosen'.length = further.length) :
    (solution? (atoms ++ further) all (chosen ++ chosen')).map f =
      (solution? atoms cs chosen).bind fun ν =>
        ((solution? further es chosen').filter (ok ν)).map (g ν) := by
  cases hν : solution? atoms cs chosen with
  | none =>
    have hnone : solution? (atoms ++ further) all (chosen ++ chosen') = none :=
      solution?_eq_none_iff.mpr fun ξ hξ =>
        solution?_eq_none_iff.mp hν ξ ((satisfies_append_iff hsplit hlen).mp hξ).1
    simp [hnone]
  | some ν =>
    cases hμ : solution? further es chosen' with
    | none =>
      have hnone : solution? (atoms ++ further) all (chosen ++ chosen') = none :=
        solution?_eq_none_iff.mpr fun ξ hξ =>
          solution?_eq_none_iff.mp hμ ξ ((satisfies_append_iff hsplit hlen).mp hξ).2.1
      simp [hnone]
    | some μ =>
      have hsatν := satisfies_of_solution? hν
      have hsatμ := satisfies_of_solution? hμ
      by_cases hmeet : ok ν μ = true
      · obtain ⟨ξ, hνξ, hμξ, hds⟩ := (hok ν μ).mp hmeet
        obtain ⟨ξ', hξ', heq⟩ := exists_solution? ((satisfies_append_iff hsplit hlen).mpr
          ⟨hsatν.congr hsplit.ofEarlier hνξ, hsatμ.congr hsplit.ofFurther hμξ, hds⟩)
        have hgf : g ν μ = f ξ' := hg ν μ ξ'
          (fun v hv => (hνξ v hv).trans (heq v (boundIn_append.mpr (.inl hv))).symm)
          (fun v hv => (hμξ v hv).trans (heq v (boundIn_append.mpr (.inr hv))).symm)
        simp [hξ', Option.filter, hmeet, hgf]
      · have hnone : solution? (atoms ++ further) all (chosen ++ chosen') = none := by
          refine solution?_eq_none_iff.mpr fun ξ hξ => hmeet ((hok ν μ).mpr ?_)
          obtain ⟨hearlier, hfurther, hds⟩ := (satisfies_append_iff hsplit hlen).mp hξ
          exact ⟨ξ, eqOn_of_map_value_eq (hsatν.rows.trans hearlier.rows.symm),
            eqOn_of_map_value_eq (hsatμ.rows.trans hfurther.rows.symm), hds⟩
        simp [hnone, Option.filter, hmeet]

/-- **Further atoms are a further loop.** The solutions for some atoms and further ones are those
pairs of a solution for the former and a solution for the latter that have a common valuation. -/
theorem map_solutions_append (table : String → List Tuple)
    (hsplit : Splits atoms further all cs es ds) {f : Valuation → γ} {g : Valuation → Valuation → γ}
    (hg : ∀ ν μ ξ, (∀ v ∈ boundIn atoms, ν v = ξ v) → (∀ v ∈ boundIn further, μ v = ξ v) →
      g ν μ = f ξ)
    {ok : Valuation → Valuation → Bool} (hok : ∀ ν μ, ok ν μ = true ↔ Meet atoms further ds ν μ) :
    (solutions table (atoms ++ further) all).map f =
      (solutions table atoms cs).flatMap fun ν =>
        ((solutions table further es).filter (ok ν)).map (g ν) := by
  have hpairs : ∀ chosen, (combinations (further.map fun a => table a.relation)).filterMap
      (fun chosen' => (solution? (atoms ++ further) all (chosen ++ chosen')).map f) =
        ((solution? atoms cs chosen).map fun ν =>
          ((solutions table further es).filter (ok ν)).map (g ν)).getD [] := by
    intro chosen
    have hlen : ∀ chosen' ∈ combinations (further.map fun a => table a.relation),
        chosen'.length = further.length := fun chosen' h => by
      rw [(mem_combinations.mp h).length_eq, List.length_map]
    rw [List.filterMap_congr fun chosen' h =>
      map_solution?_append hsplit hg hok chosen (hlen chosen' h)]
    cases solution? atoms cs chosen with
    | none => simp
    | some ν => simp [solutions, List.filter_filterMap, List.map_filterMap]
  have hloop : ∀ inner : Valuation → List γ, (solutions table atoms cs).flatMap inner =
      (combinations (atoms.map fun a => table a.relation)).flatMap fun chosen =>
        ((solution? atoms cs chosen).map inner).getD [] := by
    intro inner
    rw [solutions]
    induction combinations (atoms.map fun a => table a.relation) with
    | nil => rfl
    | cons chosen rest ih =>
      rw [List.filterMap_cons, List.flatMap_cons, ← ih]
      cases solution? atoms cs chosen <;> rfl
  rw [hloop, solutions, List.map_append, combinations_append, List.map_filterMap,
    List.filterMap_flatMap]
  simp only [List.filterMap_map, Function.comp_def, hpairs]

end Append

end Conjunct
