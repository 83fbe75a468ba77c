import Conjunct.Proofs.Folding
import Conjunct.Proofs.Totals
import Mathlib.Data.Multiset.Bind
import Mathlib.Tactic.Ring

/-!
# Multiplicity

An answer counts once, however often it is found, but a total counts every solution. So an atom
that adds no answers may still change totals: it multiplies each solution for the other atoms by
the number of ways in which it can be satisfied along with them (`total_append`). Minimizing takes
no account of this.

**Theorem (`perm_collect_minimize_iff`).** If a query with a sum and its minimized form both yield
totals, these are the same exactly if in every group the products that the dropped atoms add, and
those that they take away, cancel out (`surplus`).
-/

namespace Conjunct

/-! ## The order of atoms -/

/-- All ways to choose rows, together with the atoms that they are chosen for. -/
def choices (table : String → List Tuple) : List Atom → List (List (Atom × Tuple))
  | [] => [[]]
  | a :: rest => (table a.relation).flatMap fun t => (choices table rest).map ((a, t) :: ·)

variable {table : String → List Tuple} {atoms atoms' kept dropped : List Atom}
  {cs : List Comparison}

theorem map_fst_of_mem_choices {ps : List (Atom × Tuple)} (h : ps ∈ choices table atoms) :
    ps.map Prod.fst = atoms := by
  induction atoms generalizing ps with
  | nil =>
    cases List.mem_singleton.mp h
    rfl
  | cons a rest ih =>
    obtain ⟨t, _, hmem⟩ := List.mem_flatMap.mp h
    obtain ⟨qs, hqs, rfl⟩ := List.mem_map.mp hmem
    rw [List.map_cons, ih hqs]

theorem combinations_eq_choices (table : String → List Tuple) (atoms : List Atom) :
    combinations (atoms.map fun a => table a.relation) =
      (choices table atoms).map fun ps => ps.map Prod.snd := by
  induction atoms with
  | nil => rfl
  | cons a rest ih =>
    rw [List.map_cons, combinations, ih, choices, List.map_flatMap]
    simp [Function.comp_def]

theorem flatMap_comm_perm {α β γ : Type} (xs : List α) (ys : List β) (f : α → β → List γ) :
    (xs.flatMap fun x => ys.flatMap fun y => f x y).Perm
      (ys.flatMap fun y => xs.flatMap fun x => f x y) := by
  rw [← Multiset.coe_eq_coe, ← Multiset.coe_bind, ← Multiset.coe_bind]
  simp only [← Multiset.coe_bind]
  exact Multiset.bind_bind _ _

/-- What does not depend on the order of choices is found as often in another order of the atoms. -/
theorem filterMap_choices_perm {γ : Type} (h : atoms.Perm atoms')
    {f : List (Atom × Tuple) → Option γ} (hf : ∀ ps ps', ps.Perm ps' → f ps = f ps') :
    ((choices table atoms).filterMap f).Perm ((choices table atoms').filterMap f) := by
  induction h generalizing f with
  | nil => exact .refl _
  | cons a _ ih =>
    simp only [choices, List.filterMap_flatMap, List.filterMap_map]
    exact List.Perm.flatMap_left _ fun t _ => ih fun ps ps' h => hf _ _ (h.cons (a, t))
  | swap a b rest =>
    simp only [choices, List.filterMap_flatMap, List.filterMap_map, List.map_flatMap, List.map_map,
      Function.comp_def]
    refine (flatMap_comm_perm _ _ _).trans ?_
    refine List.Perm.flatMap_left _ fun t _ => List.Perm.flatMap_left _ fun u _ => ?_
    rw [List.filterMap_congr fun ps _ => hf _ _ (.swap (a, t) (b, u) ps)]
  | trans _ _ ih ih' => exact (ih hf).trans (ih' hf)

/-- **The order of the atoms** does not matter for how often a solution is found. -/
theorem solutions_perm (h : atoms.Perm atoms') :
    (solutions table atoms cs).Perm (solutions table atoms' cs) := by
  have hchoices : ∀ atoms, solutions table atoms cs = (choices table atoms).filterMap fun ps =>
      solution? (ps.map Prod.fst) cs (ps.map Prod.snd) := by
    intro atoms
    rw [solutions, combinations_eq_choices, List.filterMap_map]
    refine List.filterMap_congr fun ps hps => ?_
    rw [map_fst_of_mem_choices hps]
    rfl
  rw [hchoices, hchoices]
  refine filterMap_choices_perm h fun ps ps' hps => solution?_congr fun ν => ?_
  have hrows : ∀ ps : List (Atom × Tuple),
      (ps.map Prod.fst).map (Atom.value ν) = ps.map Prod.snd ↔ ∀ p ∈ ps, p.1.value ν = p.2 := by
    intro ps
    rw [List.map_map, List.map_inj_left]
    rfl
  have hiff : ∀ ps : List (Atom × Tuple), Satisfies (ps.map Prod.fst) cs (ps.map Prod.snd) ν ↔
      (∀ p ∈ ps, p.1.value ν = p.2) ∧ ∀ c ∈ cs, c.holdsIn ν = true := fun ps =>
    ⟨fun h => ⟨(hrows ps).mp h.rows, h.comparisons⟩, fun h => ⟨(hrows ps).mpr h.1, h.2⟩⟩
  simp only [hiff, hps.mem_iff]

/-! ## Ways to extend a solution -/

open Classical in
/-- The number of ways to satisfy the dropped atoms along with a solution for the kept ones. -/
noncomputable def extensions (table : String → List Tuple) (kept dropped : List Atom)
    (ν : Valuation) : Nat :=
  (solutions table dropped []).countP fun μ => Meet kept dropped [] ν μ

/-- The solutions for all atoms are those for the kept ones, each as often as it can be extended. -/
theorem map_solutions_extensions {γ : Type} {f : Valuation → γ}
    (hf : ∀ ν μ, (∀ v ∈ boundIn kept, ν v = μ v) → f ν = f μ) :
    (solutions table (kept ++ dropped) []).map f =
      (solutions table kept []).flatMap fun ν =>
        List.replicate (extensions table kept dropped ν) (f ν) := by
  classical
  have hsplit : Splits kept dropped [] [] [] [] := ⟨by simp, by simp, by simp, by simp⟩
  rw [map_solutions_append table hsplit (g := fun ν _ => f ν) (fun ν _ ξ hν _ => hf ν ξ hν)
    fun ν μ => decide_eq_true_iff]
  refine List.flatMap_congr fun ν _ => ?_
  rw [List.map_const', extensions, List.countP_eq_length_filter]

variable {outputs : List Variable} {s : Aggregate} {group : Tuple}

/-- What the dropped atoms add to the total of a group: each product once for every further way to
extend its solution, or taken away if there is no way. -/
noncomputable def surplus (table : String → List Tuple) (kept dropped : List Atom)
    (outputs : List Variable) (s : Aggregate) (group : Tuple) : Int :=
  (((solutions table kept []).filter fun ν => outputs.map ν = group).map fun ν =>
    ((extensions table kept dropped ν : Int) - 1) * Term.productIn ν s.factors).sum

/-- **Dropping atoms changes a total by the surplus** of its group. -/
theorem total_append (houtputs : ∀ v ∈ outputs, v ∈ boundIn kept)
    (hvars : ∀ v ∈ s.vars, v ∈ boundIn kept) :
    s.total outputs (solutions table (kept ++ dropped) []) group =
      s.total outputs (solutions table kept []) group +
        surplus table kept dropped outputs s group := by
  -- A total is a function of the keys and products of the solutions.
  have hkeyed : ∀ νs : List Valuation, s.total outputs νs group =
      (((νs.map fun ν => (outputs.map ν, Term.productIn ν s.factors)).filter
        fun p => p.1 = group).map Prod.snd).sum := by
    intro νs
    rw [List.filter_map, List.map_map]
    rfl
  have hlocal : ∀ ν μ : Valuation, (∀ v ∈ boundIn kept, ν v = μ v) →
      (outputs.map ν, Term.productIn ν s.factors) =
        (outputs.map μ, Term.productIn μ s.factors) := by
    intro ν μ h
    refine Prod.ext (List.map_congr_left fun v hv => h v (houtputs v hv)) ?_
    refine congrArg List.prod (List.map_congr_left fun t ht => congrArg Constant.toInt ?_)
    exact Term.value_congr fun v hv => h v (hvars v (Term.mem_variablesOf.mpr (hv ▸ ht)))
  rw [hkeyed, map_solutions_extensions hlocal, Aggregate.total, surplus]
  induction solutions table kept [] with
  | nil => rfl
  | cons ν νs ih =>
    rw [List.flatMap_cons, List.filter_append, List.map_append, List.sum_append, ih]
    by_cases hkey : outputs.map ν = group
    · rw [List.filter_replicate_of_pos (by simpa), List.filter_cons_of_pos (by simpa)]
      simp only [List.map_replicate, List.sum_replicate, List.map_cons, List.sum_cons,
        nsmul_eq_mul]
      ring
    · rw [List.filter_replicate_of_neg (by simpa), List.filter_cons_of_neg (by simpa)]
      exact Int.zero_add _

theorem total_congr {νs μs : List Valuation} (h : νs.Perm μs) :
    s.total outputs νs group = s.total outputs μs group :=
  ((h.filter _).map _).sum_eq

/-! ## Equal totals -/

/-- Rows for the same groups are the same exactly if the totals are. -/
theorem perm_rows_iff {νs μs : List Valuation} (hν : Fits outputs s νs) (hμ : Fits outputs s μs)
    (hgroups : ∀ group, group ∈ groups outputs μs ↔ group ∈ groups outputs νs) :
    (s.rows outputs μs).Perm (s.rows outputs νs) ↔
      ∀ group, s.total outputs μs group = s.total outputs νs group := by
  have hperm : (groups outputs μs).Perm (groups outputs νs) :=
    (List.perm_ext_iff_of_nodup nodup_groups nodup_groups).mpr hgroups
  constructor
  · intro hrows group
    by_cases hmem : group ∈ groups outputs μs
    · have hrow : group ++ [.integer (Int64.ofInt (s.total outputs μs group))] ∈
          s.rows outputs νs := hrows.subset (List.mem_map_of_mem hmem)
      obtain ⟨group', hmem', heq⟩ := List.mem_map.mp hrow
      obtain ⟨rfl, hlast⟩ := List.append_inj' heq rfl
      have hword := Constant.integer.inj (List.singleton_inj.mp hlast)
      rw [← Integer.toInt_ofInt (hμ.inRange _ hmem), ← hword,
        Integer.toInt_ofInt (hν.inRange _ hmem')]
    · rw [total_of_not_mem hmem, total_of_not_mem fun h => hmem ((hgroups group).mpr h)]
  · intro htotal
    have hrows : s.rows outputs μs = (groups outputs μs).map fun group =>
        group ++ [.integer (Int64.ofInt (s.total outputs νs group))] :=
      List.map_congr_left fun group _ => by rw [htotal group]
    rw [hrows]
    exact hperm.map _

namespace Query

variable {store : Storage} {catalog : Catalog} {q part minimized : Query}
  {removals : List Removal} {m m' : Machine}

/-- A query and a part that it folds onto have the same groups. -/
theorem FoldsOnto.mem_groups_iff (h : FoldsOnto q part) (hcs : q.comparisons = [])
    (hbound : ∀ v ∈ q.head.outputs, v ∈ boundIn q.atoms) {group : Tuple} :
    group ∈ groups q.head.outputs (solutions table part.atoms []) ↔
      group ∈ groups q.head.outputs (solutions table q.atoms []) := by
  have hcs' := h.comparisons_eq_nil hcs
  have hanswers := h.mem_answers_iff table (t := group) hcs hbound fun v hv =>
    h.bound (mem_distinguished.mpr (.inl hv)) (hbound v hv)
  rw [answers, answers, hcs, hcs', h.head] at hanswers
  unfold groups
  split
  · exact Iff.rfl
  · exact hanswers

theorem totals_of_collect (hsum : q.head.sum? = some s)
    (hread : ∀ a ∈ q.atoms, catalog.Readable store a.relation)
    (hplan : q.plan store catalog = .ok m) (hok : (m.collect store).1.2 = none) :
    (m.collect store).1.1 = q.totals s (catalog.table store) ∧
      Fits q.head.outputs s (solutions (catalog.table store) q.atoms q.comparisons) := by
  rcases replays_totals hsum hread hplan with ⟨hreplays, hfits⟩ | ⟨e, hreplays, _⟩
  · rw [Machine.collect_eq_of_replays hreplays]
    exact ⟨rfl, hfits⟩
  · rw [Machine.collect_eq_of_replays hreplays] at hok
    cases hok

/-- **When minimizing preserves totals.** If a query with a sum and its minimized form both yield
totals, these are the same exactly if no group has a surplus. -/
theorem perm_collect_minimize_iff (hsum : q.head.sum? = some s)
    (hminimize : q.minimize = .ok (minimized, removals))
    (hread : ∀ a ∈ q.atoms, catalog.Readable store a.relation)
    (hplan : q.plan store catalog = .ok m) (hplan' : minimized.plan store catalog = .ok m')
    (hok : (m.collect store).1.2 = none) (hok' : (m'.collect store).1.2 = none) :
    (m'.collect store).1.1.Perm (m.collect store).1.1 ↔
      ∀ group, surplus (catalog.table store) minimized.atoms (q.atoms.diff minimized.atoms)
        q.head.outputs s group = 0 := by
  obtain ⟨hcs, hreduce⟩ := of_minimize_eq_ok hminimize
  have hfolds : FoldsOnto q minimized := by
    have h := foldsOnto_reduce q
    rwa [hreduce] at h
  have hcs' : minimized.comparisons = [] := List.sublist_nil.mp (hcs ▸ hfolds.comparisons)
  obtain ⟨_, _, hhead, _⟩ := fault?_eq_none_iff.mp (fault?_of_plan hplan)
  obtain ⟨hrows, hfits⟩ := totals_of_collect hsum hread hplan hok
  obtain ⟨hrows', hfits'⟩ := totals_of_collect (by rw [hfolds.head, hsum])
    (fun a ha => hread a (hfolds.atoms.subset ha)) hplan' hok'
  rw [totals, hcs] at hrows
  rw [totals, hcs', hfolds.head] at hrows'
  rw [hcs] at hfits
  rw [hcs', hfolds.head] at hfits'
  have hkept : ∀ v ∈ q.head.distinguished, v ∈ boundIn minimized.atoms :=
    fun v hv => hfolds.bound hv (hhead v hv)
  have hatoms : (minimized.atoms ++ q.atoms.diff minimized.atoms).Perm q.atoms :=
    List.subperm_append_diff_self_of_count_le fun a _ => hfolds.atoms.count_le a
  rw [hrows, hrows', perm_rows_iff hfits hfits' fun group => hfolds.mem_groups_iff hcs
    fun v hv => hhead v (mem_distinguished.mpr (.inl hv))]
  refine forall_congr' fun group => ?_
  rw [← total_congr (solutions_perm hatoms), total_append
    (fun v hv => hkept v (mem_distinguished.mpr (.inl hv)))
    fun v hv => hkept v (mem_distinguished.mpr (.inr ⟨s, hsum, hv⟩))]
  omega

/-- Two rows that agree in their first field count twice each, and once after minimizing. -/
theorem exists_surplus_pairsByFirst :
    ∃ m minimized removals m',
      (pairsByFirst ⟨"Q", [⟨"x"⟩], some ⟨[.var ⟨"y"⟩]⟩⟩ []).plan
        Catalog.smallStore Catalog.small = .ok m ∧
      (pairsByFirst ⟨"Q", [⟨"x"⟩], some ⟨[.var ⟨"y"⟩]⟩⟩ []).minimize =
        .ok (minimized, removals) ∧
      minimized.plan Catalog.smallStore Catalog.small = .ok m' ∧
      (m.collect Catalog.smallStore).1 = ([[.integer 1, .integer 10]], none) ∧
      (m'.collect Catalog.smallStore).1 = ([[.integer 1, .integer 5]], none) ∧
      ∃ group, surplus (Catalog.small.table Catalog.smallStore) minimized.atoms
        ((pairsByFirst ⟨"Q", [⟨"x"⟩], some ⟨[.var ⟨"y"⟩]⟩⟩ []).atoms.diff minimized.atoms)
        [⟨"x"⟩] ⟨[.var ⟨"y"⟩]⟩ group ≠ 0 := by
  have hminimize : (pairsByFirst ⟨"Q", [⟨"x"⟩], some ⟨[.var ⟨"y"⟩]⟩⟩ []).minimize =
      .ok (⟨⟨"Q", [⟨"x"⟩], some ⟨[.var ⟨"y"⟩]⟩⟩, [.atom ⟨"R", [.var ⟨"x"⟩, .var ⟨"y"⟩]⟩]⟩,
        [⟨"R(x, z)", 1⟩]) := by cbv
  obtain ⟨m, hplan, hcollect⟩ := collect_pairsByFirst_sum
  have hcollect' : ∃ m', Query.plan Catalog.smallStore Catalog.small
      ⟨⟨"Q", [⟨"x"⟩], some ⟨[.var ⟨"y"⟩]⟩⟩, [.atom ⟨"R", [.var ⟨"x"⟩, .var ⟨"y"⟩]⟩]⟩ = .ok m' ∧
      (m'.collect Catalog.smallStore).1 = ([[.integer 1, .integer 5]], none) := by
    refine ⟨_, rfl, ?_⟩
    apply Machine.collect_eq_of_replays (o := ⟨[[.integer 1, .integer 5]], none⟩)
    exact Source.replays_sum (Source.replays_scan _ rfl) _
  obtain ⟨m', hplan', hcollect'⟩ := hcollect'
  refine ⟨m, _, _, m', hplan, hminimize, hplan', hcollect, hcollect', ?_⟩
  have hiff := perm_collect_minimize_iff rfl hminimize (readable_pairsByFirst _ _) hplan hplan'
    (by rw [hcollect]) (by rw [hcollect'])
  rw [hcollect, hcollect'] at hiff
  by_contra hno
  push Not at hno
  exact absurd (hiff.mpr hno) (by decide)

end Query

end Conjunct
