import Conjunct.Proofs.Answers
import Conjunct.Proofs.Search

/-!
# Folding queries

A query folds onto a part of itself if replacing variables by terms, other than the distinguished
ones, turns all its atoms into atoms of the part. Then every answer to the part is one to the whole
query: read the replacement backwards. Conversely, what satisfies a query satisfies every part of
it. Minimizing goes from a query to a part that it folds onto (`foldsOnto_reduce`).

**Theorem (`collect_minimize`).** If a query without comparisons and without a sum has a plan, the
minimized query has one too, and over readable relations the two yield the same tuples.
-/

namespace Conjunct

/-! ## Replaced variables under a valuation -/

theorem Term.value_replace (ν : Valuation) (σ : Variable → Term) (t : Term) :
    (t.replace σ).value ν = t.value fun v => (σ v).value ν := by
  cases t <;> rfl

theorem Atom.value_replace (ν : Valuation) (σ : Variable → Term) (a : Atom) :
    (a.replace σ).value ν = a.value fun v => (σ v).value ν := by
  simp [value, replace, Term.value_replace]

namespace Query

/-! ## Folding -/

/-- A query folds onto a part of itself. -/
structure FoldsOnto (q part : Query) : Prop where
  head : part.head = q.head
  body : part.body.Sublist q.body
  onto : ∃ σ : Variable → Term, (∀ v ∈ q.head.distinguished, σ v = .var v) ∧
    ∀ a ∈ q.atoms, a.replace σ ∈ part.atoms

variable {q part smaller : Query}

theorem FoldsOnto.atoms (h : FoldsOnto q part) : part.atoms.Sublist q.atoms :=
  h.body.filterMap _

theorem FoldsOnto.comparisons (h : FoldsOnto q part) :
    part.comparisons.Sublist q.comparisons :=
  h.body.filterMap _

theorem FoldsOnto.comparisons_eq_nil (h : FoldsOnto q part) (hcs : q.comparisons = []) :
    part.comparisons = [] :=
  List.sublist_nil.mp (hcs ▸ h.comparisons)

theorem FoldsOnto.refl (q : Query) : FoldsOnto q q :=
  ⟨rfl, .refl _, .var, fun _ _ => rfl, fun a ha => by rwa [a.replace_var]⟩

theorem FoldsOnto.trans (h : FoldsOnto q part) (h' : FoldsOnto part smaller) :
    FoldsOnto q smaller := by
  obtain ⟨σ, hσ, honto⟩ := h.onto
  obtain ⟨τ, hτ, honto'⟩ := h'.onto
  rw [h.head] at hτ
  refine ⟨h'.head.trans h.head, h'.body.trans h.body, fun v => (σ v).replace τ,
    fun v hv => ?_, fun a ha => ?_⟩
  · show (σ v).replace τ = .var v
    rw [hσ v hv]
    exact hτ v hv
  · rw [← Atom.replace_replace]
    exact honto' _ (honto a ha)

/-- **A query folds onto what is left without a redundant atom.** -/
theorem foldsOnto_without {position : Nat} (h : q.isRedundant position = true) :
    FoldsOnto q (q.without position) := by
  obtain ⟨a, σ, _, hσ, honto⟩ := exists_spares h
  refine ⟨rfl, List.eraseIdx_sublist _ _, σ, fun v hv => ?_, fun b hb => ?_⟩
  · by_contra hmoves
    exact (hσ v hmoves).2 hv
  · exact (honto _).mp (List.mem_map_of_mem hb)

theorem foldsOnto_reduce (q : Query) : FoldsOnto q q.reduce.1 := by
  fun_induction reduce q with
  | case1 q => exact .refl q
  | case2 q position hfirst text reduced removals hreduced ih =>
    rw [hreduced] at ih
    exact (foldsOnto_without (List.find?_some hfirst)).trans ih

/-! ## Answers -/

/-- The tuples among the answers are the values of the head's variables under the valuations that
turn all atoms into rows and satisfy all comparisons. -/
theorem mem_answers_iff {table : String → List Tuple}
    (hbound : ∀ v ∈ q.head.outputs, v ∈ boundIn q.atoms) {t : Tuple} :
    t ∈ q.answers table ↔ ∃ ν : Valuation, (∀ a ∈ q.atoms, a.value ν ∈ table a.relation) ∧
      (∀ c ∈ q.comparisons, c.holdsIn ν = true) ∧ q.head.outputs.map ν = t := by
  rw [answers, List.mem_eraseDups, List.mem_map]
  constructor
  · rintro ⟨ν, hν, rfl⟩
    obtain ⟨hrows, hcs⟩ := of_mem_solutions hν
    exact ⟨ν, hrows, hcs, rfl⟩
  · rintro ⟨ν, hrows, hcs, rfl⟩
    obtain ⟨μ, hμ, heq⟩ := exists_mem_solutions hrows hcs
    exact ⟨μ, hμ, List.map_congr_left fun v hv => heq v (hbound v hv)⟩

/-- Folding does not change the answers. -/
theorem FoldsOnto.mem_answers_iff (table : String → List Tuple) (h : FoldsOnto q part)
    (hcs : q.comparisons = []) (hq : ∀ v ∈ q.head.outputs, v ∈ boundIn q.atoms)
    (hpart : ∀ v ∈ q.head.outputs, v ∈ boundIn part.atoms) {t : Tuple} :
    t ∈ part.answers table ↔ t ∈ q.answers table := by
  have hcs' := h.comparisons_eq_nil hcs
  rw [← h.head] at hpart
  rw [Query.mem_answers_iff hq, Query.mem_answers_iff hpart, hcs, hcs', h.head]
  constructor
  · rintro ⟨ν, hrows, hnone, rfl⟩
    obtain ⟨σ, hσ, honto⟩ := h.onto
    -- Read the replacement backwards: the value of `v` is the value of what replaces it.
    refine ⟨fun v => (σ v).value ν, fun a ha => ?_, by simp, List.map_congr_left fun v hv => ?_⟩
    · rw [← Atom.value_replace]
      exact hrows _ (honto a ha)
    · show (σ v).value ν = ν v
      rw [hσ v (mem_distinguished.mpr (.inl hv))]
      rfl
  · rintro ⟨ν, hrows, hnone, rfl⟩
    exact ⟨ν, fun a ha => hrows a (h.atoms.subset ha), by simp, rfl⟩

/-! ## Plans of minimized queries -/

section

variable {store : Storage} {catalog : Catalog} {m : Machine}

/-- The variables of the head still occur in a part that the query folds onto. -/
theorem FoldsOnto.bound (h : FoldsOnto q part) {v : Variable} (hv : v ∈ q.head.distinguished)
    (hbound : v ∈ boundIn q.atoms) : v ∈ boundIn part.atoms := by
  obtain ⟨σ, hσ, honto⟩ := h.onto
  obtain ⟨a, ha, hva⟩ := mem_boundIn.mp hbound
  exact mem_boundIn.mpr ⟨_, honto a ha, Atom.mem_vars_replace (hσ v hv) hva⟩

/-- A part that a query in order folds onto is in order. -/
theorem FoldsOnto.fault?_eq_none (h : FoldsOnto q part) (hcs : q.comparisons = [])
    (hfault : q.fault? catalog = none) : part.fault? catalog = none := by
  obtain ⟨hne, hatoms, hhead, _⟩ := fault?_eq_none_iff.mp hfault
  have hcs' := h.comparisons_eq_nil hcs
  refine fault?_eq_none_iff.mpr ⟨?_, fun a ha => hatoms a (h.atoms.subset ha), ?_, by simp [hcs']⟩
  · obtain ⟨σ, _, honto⟩ := h.onto
    obtain ⟨a, ha⟩ := List.exists_mem_of_ne_nil _ hne
    exact List.ne_nil_of_mem (honto a ha)
  · rw [h.head]
    exact fun v hv => h.bound hv (hhead v hv)

theorem of_minimize_eq_ok {r : Query × List Removal} (h : q.minimize = .ok r) :
    q.comparisons = [] ∧ q.reduce = r := by
  unfold minimize at h
  split at h
  · cases h
  · next hcs => exact ⟨hcs, Except.ok.inj h⟩

theorem minimize_eq_ok (hcs : q.comparisons = []) : q.minimize = .ok q.reduce := by
  rw [minimize, hcs]

/-- **Minimizing preserves the answers.** The minimized query has a plan, and both plans yield the
same tuples, without an error. -/
theorem collect_minimize (hcs : q.comparisons = []) (hsum : q.head.sum? = none)
    (hread : ∀ a ∈ q.atoms, catalog.Readable store a.relation)
    (hplan : q.plan store catalog = .ok m) :
    ∃ minimized removals m', q.minimize = .ok (minimized, removals) ∧
      minimized.plan store catalog = .ok m' ∧
      (m.collect store).1.2 = none ∧ (m'.collect store).1.2 = none ∧
      ∀ t, t ∈ (m'.collect store).1.1 ↔ t ∈ (m.collect store).1.1 := by
  have hfolds := foldsOnto_reduce q
  have hfault := fault?_of_plan hplan
  have hfault' := hfolds.fault?_eq_none hcs hfault
  have hsum' : q.reduce.1.head.sum? = none := by rw [hfolds.head, hsum]
  have hread' : ∀ a ∈ q.reduce.1.atoms, catalog.Readable store a.relation :=
    fun a ha => hread a (hfolds.atoms.subset ha)
  obtain ⟨m', hplan'⟩ := exists_plan hsum' hfault' fun a ha =>
    Catalog.opens_of_readable (hread' a ha)
  have hcollect := Machine.collect_eq_of_replays (replays_answers hsum hread hplan)
  have hcollect' := Machine.collect_eq_of_replays (replays_answers hsum' hread' hplan')
  refine ⟨_, _, m', minimize_eq_ok hcs, hplan', by rw [hcollect], by rw [hcollect'], fun t => ?_⟩
  obtain ⟨_, _, hhead, _⟩ := fault?_eq_none_iff.mp hfault
  rw [hcollect, hcollect']
  exact hfolds.mem_answers_iff _ hcs (fun v hv => hhead v (mem_distinguished.mpr (.inl hv)))
    fun v hv => hfolds.bound (mem_distinguished.mpr (.inl hv))
      (hhead v (mem_distinguished.mpr (.inl hv)))

end

theorem collect_minimize_pairsByFirst :
    ∃ m minimized removals m',
      (pairsByFirst ⟨"Q", [⟨"x"⟩], none⟩ []).plan Catalog.smallStore Catalog.small = .ok m ∧
      (pairsByFirst ⟨"Q", [⟨"x"⟩], none⟩ []).minimize = .ok (minimized, removals) ∧
      minimized.atoms.length = 1 ∧
      minimized.plan Catalog.smallStore Catalog.small = .ok m' ∧
      ∀ t, t ∈ (m'.collect Catalog.smallStore).1.1 ↔ t ∈ (m.collect Catalog.smallStore).1.1 := by
  obtain ⟨minimized, removals, m', hminimize, hplan', _, _, hsame⟩ :=
    collect_minimize (q := pairsByFirst ⟨"Q", [⟨"x"⟩], none⟩ []) rfl rfl
      (readable_pairsByFirst _ _) rfl
  refine ⟨_, minimized, removals, m', rfl, hminimize, ?_, hplan', hsame⟩
  have hlength : (pairsByFirst ⟨"Q", [⟨"x"⟩], none⟩ []).minimize.toOption.map
      (fun r => r.1.atoms.length) = some 1 := by cbv
  rw [hminimize] at hlength
  exact Option.some.inj hlength

end Query

end Conjunct
