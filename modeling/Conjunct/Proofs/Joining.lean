import Conjunct.Proofs.Leaves

/-!
# Joined leaves

The leaves of a query are joined from left to right, and this module follows the chain. After each
join, for the atoms that have been joined so far, the machine satisfies the invariant `Joined`:

* its schema has no variables but those of the atoms;
* of these it has all that are still wanted, by the head, by a comparison that is pending, or by a
  later atom;
* it shows the solutions of the atoms and of the comparisons that are settled by now.

A comparison is settled by the first leaf that has all its variables, or else by the first join
that brings them together. What a join pairs is then what a nested loop over solutions pairs
(`pairs_iff_meet`), and narrowing the sides of a join takes away only what nobody asks for.

**Theorem (`exists_chain`).** The leaves of a query without faults whose files open can be joined.
No comparison is left over, and the machine that joins them shows the solutions of the query. On the
way, further properties of machines can be carried along (`Inherited`).
-/

namespace Conjunct

/-! ## Narrowing -/

theorem Machine.Shows.of_exact {store : Storage} {m : Machine} {νs : List Valuation}
    (h : m.Shows store true νs) (exact : Bool) : m.Shows store exact νs := by
  obtain ⟨ts, hts, halike⟩ := h
  exact ⟨ts, hts, Alike.of_eq halike⟩

/-- A machine has been reduced to some of its variables. -/
structure Narrows (store : Storage) (exact : Bool) (keep : Variable → Prop) (m m' : Machine) :
    Prop where
  vars : ∀ v, v ∈ m'.schema.vars ↔ v ∈ m.schema.vars ∧ keep v
  shows : ∀ νs, m.Shows store exact νs → m'.Shows store exact νs

theorem Atom.length_vars_le (a : Atom) : a.vars.length ≤ a.arity :=
  Nat.le_trans (eraseDups_sublist _).length_le (List.length_filterMap_le _ _)

theorem Atom.vars_of_terms {a : Atom} {vs : List Variable} (h : a.terms = vs.map .var)
    {v : Variable} : v ∈ a.vars ↔ v ∈ vs := by
  rw [mem_vars, h]
  simp

/-- Narrowing succeeds, and is not seen where repetitions do not count. -/
theorem exists_narrow (store : Storage) (needed : Variable → Bool) (m : Machine) :
    ∃ m', Query.narrow needed m = .ok m' ∧ Narrows store false (needed · = true) m m' := by
  have htargets : ∀ v ∈ m.schema.vars.filter needed, v ∈ m.schema.vars :=
    fun v hv => (List.mem_filter.mp hv).1
  by_cases hlen : (m.schema.vars.filter needed).length = m.schema.arity
  · refine ⟨m, if_pos hlen, fun v => ?_, fun νs h => h⟩
    have hall : m.schema.vars.filter needed = m.schema.vars :=
      List.filter_sublist.eq_of_length_le (hlen ▸ m.schema.length_vars_le)
    exact ⟨fun hv => ⟨hv, List.filter_eq_self.mp hall v hv⟩, fun h => h.1⟩
  · obtain ⟨m', hm', hterms, hshows⟩ := Machine.exists_project htargets
    refine ⟨m', ?_, fun v => ?_, fun νs h => ⟨_, hshows store false νs h, ?_⟩⟩
    · simp only [Query.narrow, if_neg hlen, hm', Except.mapError]
    · rw [Atom.vars_of_terms hterms, List.mem_filter]
    · have hvalue : ∀ ν, m'.schema.value ν = (m.schema.vars.filter needed).map ν := by
        intro ν
        rw [Atom.value, hterms, List.map_map]
        rfl
      simp only [hvalue]
      exact (Alike.of_eq rfl).eraseDups

namespace Query

variable {store : Storage} {catalog : Catalog} {q : Query}

/-! ## Settled comparisons -/

/-- Whether a comparison has been decided once the given atoms are joined: on the leaf of one of
them, or by a join if there is no such leaf in the whole query. -/
def settled (q : Query) (atoms : List Atom) (c : Comparison) : Bool :=
  atoms.any (decidedBy c) ||
    (!q.atoms.any (decidedBy c) && decide (∀ v ∈ c.vars, v ∈ boundIn atoms))

/-- The comparisons that are left to later joins. -/
def pendingAfter (q : Query) (atoms : List Atom) : List Comparison :=
  q.joinComparisons.filter fun c => ¬ ∀ v ∈ c.vars, v ∈ boundIn atoms

theorem decidedBy_iff {c : Comparison} {a : Atom} :
    decidedBy c a = true ↔ ∀ v ∈ c.vars, v ∈ a.vars := by
  simp only [decidedBy, List.all_eq_true, Atom.mentions_iff]

theorem decidedBy_of_isGround {c : Comparison} (h : c.isGround = true) (a : Atom) :
    decidedBy c a = true := by
  rw [decidedBy_iff, Comparison.isGround_iff.mp h]
  simp

theorem settled_iff {atoms : List Atom} {c : Comparison} :
    q.settled atoms c = true ↔ (∃ a ∈ atoms, decidedBy c a = true) ∨
      (∀ a ∈ q.atoms, ¬ decidedBy c a = true) ∧ ∀ v ∈ c.vars, v ∈ boundIn atoms := by
  simp [settled]

theorem mem_joinComparisons {c : Comparison} :
    c ∈ q.joinComparisons ↔
      c ∈ q.comparisons ∧ ¬ c.isGround = true ∧ ∀ a ∈ q.atoms, ¬ decidedBy c a = true := by
  simp [joinComparisons]

theorem mem_pendingAfter {atoms : List Atom} {c : Comparison} :
    c ∈ q.pendingAfter atoms ↔ c ∈ q.joinComparisons ∧ ¬ ∀ v ∈ c.vars, v ∈ boundIn atoms := by
  rw [pendingAfter, List.mem_filter, decide_eq_true_iff]

theorem vars_of_settled {atoms : List Atom} {c : Comparison} (h : q.settled atoms c = true) :
    ∀ v ∈ c.vars, v ∈ boundIn atoms := by
  rcases settled_iff.mp h with ⟨a, ha, hc⟩ | ⟨_, hc⟩
  · exact fun v hv => mem_boundIn.mpr ⟨a, ha, decidedBy_iff.mp hc v hv⟩
  · exact hc

/-- On the first leaf, what is selected is what is settled. -/
theorem selectionsAt_zero {a : Atom} (ha : a ∈ q.atoms) :
    q.selectionsAt 0 a = q.comparisons.filter (q.settled [a]) := by
  refine List.filter_congr fun c _ => ?_
  rw [Bool.eq_iff_iff, settled_iff]
  by_cases hground : c.isGround = true
  · simp [hground, decidedBy_of_isGround hground]
  · simp only [hground, Bool.false_eq_true, if_false, List.mem_singleton, exists_eq_left,
      boundIn_singleton]
    exact ⟨.inl, fun h => h.elim id fun ⟨hno, hvars⟩ =>
      absurd (decidedBy_iff.mpr hvars) (hno a ha)⟩

theorem mem_selectionsAt_succ {position : Nat} {a : Atom} {c : Comparison} :
    c ∈ q.selectionsAt (position + 1) a ↔
      c ∈ q.comparisons ∧ ¬ c.isGround = true ∧ decidedBy c a = true := by
  by_cases hground : c.isGround = true <;> simp [selectionsAt, hground]

/-- **What a further atom settles**: what its leaf selects, and the pending comparisons whose
variables are all there now. -/
theorem settled_concat_iff (position : Nat) {atoms later : List Atom} {a : Atom}
    (hatoms : q.atoms = atoms ++ a :: later) (hne : atoms ≠ []) {c : Comparison}
    (hc : c ∈ q.comparisons) :
    q.settled (atoms ++ [a]) c = true ↔
      q.settled atoms c = true ∨ c ∈ q.selectionsAt (position + 1) a ∨
        c ∈ q.pendingAfter atoms ∧ ∀ v ∈ c.vars, v ∈ boundIn (atoms ++ [a]) := by
  have hmem : a ∈ q.atoms := by simp [hatoms]
  constructor
  · intro h
    rcases settled_iff.mp h with ⟨b, hb, hdecided⟩ | ⟨hno, hvars⟩
    · by_cases hground : c.isGround = true
      · obtain ⟨first, hfirst⟩ := List.exists_mem_of_ne_nil _ hne
        exact .inl (settled_iff.mpr (.inl ⟨first, hfirst, decidedBy_of_isGround hground first⟩))
      · rcases List.mem_append.mp hb with hb | hb
        · exact .inl (settled_iff.mpr (.inl ⟨b, hb, hdecided⟩))
        · cases List.mem_singleton.mp hb
          exact .inr (.inl (mem_selectionsAt_succ.mpr ⟨hc, hground, hdecided⟩))
    · by_cases hvars' : ∀ v ∈ c.vars, v ∈ boundIn atoms
      · exact .inl (settled_iff.mpr (.inr ⟨hno, hvars'⟩))
      · have hground : ¬ c.isGround = true := fun hg => hno a hmem (decidedBy_of_isGround hg a)
        have hjoin : c ∈ q.joinComparisons := mem_joinComparisons.mpr ⟨hc, hground, hno⟩
        exact .inr (.inr ⟨mem_pendingAfter.mpr ⟨hjoin, hvars'⟩, hvars⟩)
  · rintro (h | h | ⟨hpending, hvars⟩)
    · rcases settled_iff.mp h with ⟨b, hb, hdecided⟩ | ⟨hno, hvars⟩
      · exact settled_iff.mpr (.inl ⟨b, List.mem_append_left _ hb, hdecided⟩)
      · exact settled_iff.mpr (.inr ⟨hno, fun v hv => boundIn_append.mpr (.inl (hvars v hv))⟩)
    · obtain ⟨_, _, hdecided⟩ := mem_selectionsAt_succ.mp h
      exact settled_iff.mpr (.inl ⟨a, by simp, hdecided⟩)
    · obtain ⟨_, _, hno⟩ := mem_joinComparisons.mp (mem_pendingAfter.mp hpending).1
      exact settled_iff.mpr (.inr ⟨hno, hvars⟩)

theorem splits_settled (position : Nat) {atoms later : List Atom} {a : Atom}
    (hatoms : q.atoms = atoms ++ a :: later) (hne : atoms ≠ []) :
    Splits atoms [a] (q.comparisons.filter (q.settled (atoms ++ [a])))
      (q.comparisons.filter (q.settled atoms)) (q.selectionsAt (position + 1) a)
      ((q.pendingAfter atoms).filter fun c => ∀ v ∈ c.vars, v ∈ boundIn (atoms ++ [a])) := by
  have hsettled : ∀ c ∈ q.comparisons, q.settled (atoms ++ [a]) c = true ↔
      q.settled atoms c = true ∨ c ∈ q.selectionsAt (position + 1) a ∨
        c ∈ q.pendingAfter atoms ∧ ∀ v ∈ c.vars, v ∈ boundIn (atoms ++ [a]) :=
    fun _ => settled_concat_iff position hatoms hne
  constructor
  · intro ν
    simp only [List.mem_filter, decide_eq_true_iff]
    constructor
    · intro h
      refine ⟨fun c hc => h c ⟨hc.1, (hsettled c hc.1).mpr (.inl hc.2)⟩, fun c hc => ?_,
        fun c hc => ?_⟩
      · have hmem : c ∈ q.comparisons := (mem_selectionsAt_succ.mp hc).1
        exact h c ⟨hmem, (hsettled c hmem).mpr (.inr (.inl hc))⟩
      · have hmem : c ∈ q.comparisons :=
          (mem_joinComparisons.mp (mem_pendingAfter.mp hc.1).1).1
        exact h c ⟨hmem, (hsettled c hmem).mpr (.inr (.inr hc))⟩
    · rintro ⟨hearlier, hleaf, hjoin⟩ c ⟨hmem, hc⟩
      rcases (hsettled c hmem).mp hc with h | h | h
      · exact hearlier c ⟨hmem, h⟩
      · exact hleaf c h
      · exact hjoin c h
  · exact fun c hc => vars_of_settled (List.mem_filter.mp hc).2
  · exact fun c hc v hv => boundIn_singleton.mpr
      (decidedBy_iff.mp (mem_selectionsAt_succ.mp hc).2.2 v hv)
  · exact fun c hc => of_decide_eq_true (List.mem_filter.mp hc).2

/-! ## One join -/

theorem mem_of_isSome_bind? {outer inner : Atom} {c : Comparison}
    (h : (JoinCondition.bind? outer inner c).isSome = true) :
    ∀ v ∈ c.vars, v ∈ outer.vars ∨ v ∈ inner.vars := by
  intro v hv
  rcases JoinCondition.isSome_bind?_iff.mp h with ⟨x, hx, y, hy, hl, hr⟩ | ⟨x, hx, y, hy, hr, hl⟩
  all_goals
    rcases Comparison.mem_vars.mp hv with hc | hc
    · cases hl.symm.trans hc
      simp [hx, hy]
    · cases hr.symm.trans hc
      simp [hx, hy]

/-- A comparison relates two schemas that have its variables if neither has them all. -/
theorem isSome_bind?_of_mem {outer inner : Atom} {c : Comparison}
    (hvars : ∀ v ∈ c.vars, v ∈ outer.vars ∨ v ∈ inner.vars)
    (houter : ¬ ∀ v ∈ c.vars, v ∈ outer.vars) (hinner : ¬ ∀ v ∈ c.vars, v ∈ inner.vars) :
    (JoinCondition.bind? outer inner c).isSome = true := by
  push Not at houter hinner
  obtain ⟨v, hv, hvo⟩ := houter
  obtain ⟨w, hw, hwi⟩ := hinner
  have hvi := (hvars v hv).resolve_left hvo
  have hwo := (hvars w hw).resolve_right hwi
  rw [JoinCondition.isSome_bind?_iff]
  rcases Comparison.mem_vars.mp hv with hv | hv <;> rcases Comparison.mem_vars.mp hw with hw | hw
  · cases hv.symm.trans hw
    exact absurd hvi hwi
  · exact .inr ⟨w, hwo, v, hvi, hw, hv⟩
  · exact .inl ⟨w, hwo, v, hvi, hw, hv⟩
  · cases hv.symm.trans hw
    exact absurd hvi hwi

/-- **A join pairs what a nested loop pairs**, if its sides have all variables that they share and
those of its comparisons. -/
theorem pairs_iff_meet {outer inner : Atom} {atoms further : List Atom} {cs : List Comparison}
    (houter : ∀ v ∈ outer.vars, v ∈ boundIn atoms)
    (hinner : ∀ v ∈ inner.vars, v ∈ boundIn further)
    (hshared : ∀ v ∈ boundIn atoms, v ∈ boundIn further → v ∈ outer.vars ∧ v ∈ inner.vars)
    (hcs : ∀ c ∈ cs, (JoinCondition.bind? outer inner c).isSome = true) (ν μ : Valuation) :
    Plan.pairs (Plan.joinConditions outer inner cs) (outer.value ν) (inner.value μ) = true ↔
      Meet atoms further cs ν μ := by
  rw [Plan.pairs_iff_exists]
  constructor
  · rintro ⟨ξ, hν, hμ, hholds⟩
    -- Beyond the two schemas, `ξ` is any valuation; there the common one follows `ν` and `μ`.
    let both : Valuation := fun v => if v ∈ boundIn atoms then ν v else μ v
    have hboth : ∀ v ∈ boundIn further, μ v = both v := by
      intro v hv
      by_cases hb : v ∈ boundIn atoms
      · obtain ⟨hvo, hvi⟩ := hshared v hb hv
        exact ((hμ v hvi).trans (hν v hvo).symm).trans (if_pos hb).symm
      · exact (if_neg hb).symm
    refine ⟨both, fun v hv => (if_pos hv).symm, hboth, fun c hc => ?_⟩
    rw [← hholds c hc (hcs c hc)]
    refine Comparison.holdsIn_congr fun v hv => ?_
    rcases mem_of_isSome_bind? (hcs c hc) v hv with hvo | hvi
    · exact (if_pos (houter v hvo)).trans (hν v hvo)
    · exact (hboth v (hinner v hvi)).symm.trans (hμ v hvi)
  · rintro ⟨ξ, hν, hμ, hholds⟩
    exact ⟨ξ, fun v hv => hν v (houter v hv), fun v hv => hμ v (hinner v hv),
      fun c hc _ => hholds c hc⟩

/-! ## The chain of joins -/

/-- Whether a variable is asked for by the head, a pending comparison or a later atom. -/
def wanted (q : Query) (pending : List Comparison) (later : List Atom) (v : Variable) : Prop :=
  q.head.sum?.isSome = true ∨ v ∈ q.head.outputs ∨ (∃ c ∈ pending, v ∈ c.vars) ∨
    ∃ a ∈ later, v ∈ a.vars

/-- The invariant of the chain: what is known of the machine for the atoms joined so far. -/
structure Joined (store : Storage) (catalog : Catalog) (q : Query) (atoms later : List Atom)
    (m : Machine) : Prop where
  bound : ∀ v ∈ m.schema.vars, v ∈ boundIn atoms
  kept : ∀ v ∈ boundIn atoms, q.wanted (q.pendingAfter atoms) later v → v ∈ m.schema.vars
  shows : (∀ a ∈ atoms, catalog.Readable store a.relation) →
    m.Shows store q.head.sum?.isSome
      (solutions (catalog.table store) atoms (q.comparisons.filter (q.settled atoms)))

/-- What is known of the machine for one atom, with what has been selected on it. -/
structure IsLeaf (store : Storage) (catalog : Catalog) (a : Atom) (cs : List Comparison)
    (m : Machine) : Prop where
  schema : m.schema = a
  shows : catalog.Readable store a.relation →
    m.Shows store true (solutions (catalog.table store) [a] cs)

/-- The pending comparisons that a join applies are those whose variables are all there now. -/
theorem applies_iff {atoms later : List Atom} {a : Atom} {outer : Machine} {c : Comparison}
    (hatoms : q.atoms = atoms ++ a :: later)
    (houter : Joined store catalog q atoms (a :: later) outer) (hc : c ∈ q.pendingAfter atoms) :
    (JoinCondition.bind? outer.schema a c).isSome = true ↔
      ∀ v ∈ c.vars, v ∈ boundIn (atoms ++ [a]) := by
  obtain ⟨hjoin, hpending⟩ := mem_pendingAfter.mp hc
  obtain ⟨_, _, hno⟩ := mem_joinComparisons.mp hjoin
  constructor
  · intro h v hv
    rw [boundIn_append]
    exact (mem_of_isSome_bind? h v hv).imp (houter.bound v) boundIn_singleton.mpr
  · intro h
    refine isSome_bind?_of_mem (fun v hv => ?_) (fun hall => ?_) (fun hall => ?_)
    · exact (boundIn_append.mp (h v hv)).imp
        (fun hb => houter.kept v hb (.inr (.inr (.inl ⟨c, hc, hv⟩)))) boundIn_singleton.mp
    · exact hpending fun v hv => houter.bound v (hall v hv)
    · exact hno a (by simp [hatoms]) (decidedBy_iff.mpr hall)

theorem pendingAfter_concat {atoms : List Atom} {a : Atom} :
    q.pendingAfter (atoms ++ [a]) =
      (q.pendingAfter atoms).filter fun c => ¬ ∀ v ∈ c.vars, v ∈ boundIn (atoms ++ [a]) := by
  rw [pendingAfter, pendingAfter, List.filter_filter]
  refine List.filter_congr fun c _ => ?_
  have hgrow : (∀ v ∈ c.vars, v ∈ boundIn atoms) → ∀ v ∈ c.vars, v ∈ boundIn (atoms ++ [a]) :=
    fun h v hv => boundIn_append.mpr (.inl (h v hv))
  rw [Bool.eq_iff_iff, Bool.and_eq_true, decide_eq_true_iff, decide_eq_true_iff]
  exact ⟨fun h => ⟨h, fun h' => h (hgrow h')⟩, fun h => h.1⟩

theorem wanted_of_concat {atoms later : List Atom} {a : Atom} {v : Variable}
    (h : q.wanted (q.pendingAfter (atoms ++ [a])) later v) :
    q.wanted (q.pendingAfter atoms) later v := by
  rw [pendingAfter_concat] at h
  refine h.imp_right (Or.imp_right (Or.imp_left ?_))
  rintro ⟨c, hc, hv⟩
  exact ⟨c, (List.mem_filter.mp hc).1, hv⟩

theorem wanted_cons {pending : List Comparison} {later : List Atom} {a : Atom} {v : Variable}
    (h : q.wanted pending later v) : q.wanted pending (a :: later) v := by
  refine h.imp_right (Or.imp_right (Or.imp_right ?_))
  rintro ⟨b, hb, hv⟩
  exact ⟨b, List.mem_cons_of_mem a hb, hv⟩

/-! ## The sides of a join -/

/-- Whether a variable stays on the sides of a join: if it is wanted or relates the two. -/
def keeps (q : Query) (pending : List Comparison) (later : List Atom) (outer inner : Atom)
    (v : Variable) : Prop :=
  q.wanted pending later v ∨ v ∈ outer.vars ∧ v ∈ inner.vars

theorem keeps_eq {pending : List Comparison} {outer inner : Machine} {later : List Machine} :
    q.keeps pending (later.map Machine.schema) outer.schema inner.schema = fun v =>
      q.head.sum?.isSome = true ∨ q.needed pending outer inner later v = true := by
  refine funext fun v => propext ?_
  simp only [needed, keeps, wanted, Bool.or_eq_true, Bool.and_eq_true, List.any_eq_true,
    List.contains_iff_mem, Atom.mentions_iff, List.mem_map, exists_exists_and_eq_and]
  constructor
  · rintro ((h | h | h | h) | h) <;> simp only [h, true_or, or_true, and_self]
  · rintro (h | ((h | h) | h) | h) <;> simp only [h, true_or, or_true, and_self]

/-- The sides of a join can be made, and keep all variables that they have to. -/
theorem exists_joinSides (store : Storage) (q : Query) (pending : List Comparison)
    (outer inner : Machine) (later : List Machine) :
    ∃ outer' inner', q.joinSides pending outer inner later = .ok (outer', inner') ∧
      Narrows store q.head.sum?.isSome
        (q.keeps pending (later.map Machine.schema) outer.schema inner.schema) outer outer' ∧
      Narrows store q.head.sum?.isSome
        (q.keeps pending (later.map Machine.schema) outer.schema inner.schema) inner inner' := by
  rw [keeps_eq]
  by_cases hsum : q.head.sum?.isSome = true
  · refine ⟨outer, inner, if_pos hsum, ⟨fun v => ?_, fun _ h => h⟩, ⟨fun v => ?_, fun _ h => h⟩⟩
    all_goals simp [hsum]
  · obtain ⟨outer', houter, hnarrow⟩ :=
      exists_narrow store (q.needed pending outer inner later) outer
    obtain ⟨inner', hinner, hnarrow'⟩ :=
      exists_narrow store (q.needed pending outer inner later) inner
    refine ⟨outer', inner', ?_, ?_, ?_⟩
    · simp only [joinSides, if_neg hsum, houter, hinner, bind, Except.bind]
    all_goals simp only [Bool.not_eq_true] at hsum
    · simpa only [hsum, Bool.false_eq_true, false_or] using hnarrow
    · simpa only [hsum, Bool.false_eq_true, false_or] using hnarrow'

theorem mem_vars_join {outer inner : Machine} {cs : List Comparison} {v : Variable} :
    v ∈ (outer.join inner cs).schema.vars ↔ v ∈ outer.schema.vars ∨ v ∈ inner.schema.vars := by
  simp only [Atom.mem_vars]
  exact List.mem_append

theorem value_join {outer inner : Machine} {cs : List Comparison} (ν : Valuation) :
    (outer.join inner cs).schema.value ν = outer.schema.value ν ++ inner.schema.value ν :=
  List.map_append

section Step

variable {atoms later : List Atom} {a : Atom} {outer inner outer' inner' : Machine}
  {position : Nat}

/-- The variables that both sides of the next join have are left to them. -/
theorem shared_of_narrows (houter : Joined store catalog q atoms (a :: later) outer)
    (hinner : inner.schema = a)
    (ho : Narrows store q.head.sum?.isSome
      (q.keeps (q.pendingAfter atoms) later outer.schema inner.schema) outer outer')
    (hi : Narrows store q.head.sum?.isSome
      (q.keeps (q.pendingAfter atoms) later outer.schema inner.schema) inner inner') :
    ∀ v ∈ boundIn atoms, v ∈ boundIn [a] → v ∈ outer'.schema.vars ∧ v ∈ inner'.schema.vars := by
  intro v hv hva
  rw [boundIn_singleton] at hva
  have hvo : v ∈ outer.schema.vars :=
    houter.kept v hv (.inr (.inr (.inr ⟨a, List.mem_cons_self, hva⟩)))
  have hvi : v ∈ inner.schema.vars := hinner ▸ hva
  exact ⟨(ho.vars v).mpr ⟨hvo, .inr ⟨hvo, hvi⟩⟩, (hi.vars v).mpr ⟨hvi, .inr ⟨hvo, hvi⟩⟩⟩

/-- The comparisons that the next join applies still relate its sides. -/
theorem applies_of_narrows (hatoms : q.atoms = atoms ++ a :: later)
    (houter : Joined store catalog q atoms (a :: later) outer) (hinner : inner.schema = a)
    (ho : Narrows store q.head.sum?.isSome
      (q.keeps (q.pendingAfter atoms) later outer.schema inner.schema) outer outer')
    (hi : Narrows store q.head.sum?.isSome
      (q.keeps (q.pendingAfter atoms) later outer.schema inner.schema) inner inner')
    {c : Comparison} (hc : c ∈ q.pendingAfter atoms)
    (hnow : ∀ v ∈ c.vars, v ∈ boundIn (atoms ++ [a])) :
    (JoinCondition.bind? outer'.schema inner'.schema c).isSome = true := by
  have hvars := mem_of_isSome_bind? ((applies_iff hatoms houter hc).mpr hnow)
  obtain ⟨hjoin, hnot⟩ := mem_pendingAfter.mp hc
  obtain ⟨_, _, hno⟩ := mem_joinComparisons.mp hjoin
  subst hinner
  refine isSome_bind?_of_mem (fun v hv => ?_) (fun hall => ?_) (fun hall => ?_)
  · have hwanted : q.wanted (q.pendingAfter atoms) later v := .inr (.inr (.inl ⟨c, hc, hv⟩))
    exact (hvars v hv).imp (fun h => (ho.vars v).mpr ⟨h, .inl hwanted⟩)
      fun h => (hi.vars v).mpr ⟨h, .inl hwanted⟩
  · exact hnot fun v hv => houter.bound v ((ho.vars v).mp (hall v hv)).1
  · refine hno inner.schema (by simp [hatoms]) (decidedBy_iff.mpr fun v hv => ?_)
    exact ((hi.vars v).mp (hall v hv)).1

/-- **One join keeps the invariant.** -/
theorem Joined.step (hatoms : q.atoms = atoms ++ a :: later) (hne : atoms ≠ [])
    (houter : Joined store catalog q atoms (a :: later) outer)
    (hinner : IsLeaf store catalog a (q.selectionsAt (position + 1) a) inner)
    (ho : Narrows store q.head.sum?.isSome
      (q.keeps (q.pendingAfter atoms) later outer.schema inner.schema) outer outer')
    (hi : Narrows store q.head.sum?.isSome
      (q.keeps (q.pendingAfter atoms) later outer.schema inner.schema) inner inner') :
    Joined store catalog q (atoms ++ [a]) later (outer'.join inner'
      ((q.pendingAfter atoms).filter fun c => ∀ v ∈ c.vars, v ∈ boundIn (atoms ++ [a]))) := by
  have hbound : ∀ v ∈ outer'.schema.vars, v ∈ boundIn atoms :=
    fun v hv => houter.bound v ((ho.vars v).mp hv).1
  have hvars : ∀ v ∈ inner'.schema.vars, v ∈ boundIn [a] := fun v hv =>
    boundIn_singleton.mpr (hinner.schema ▸ ((hi.vars v).mp hv).1)
  constructor
  case bound =>
    intro v hv
    rw [boundIn_append]
    exact (mem_vars_join.mp hv).imp (hbound v) (hvars v)
  case kept =>
    intro v hv hwanted
    have hwanted' := wanted_of_concat hwanted
    rw [mem_vars_join]
    rcases boundIn_append.mp hv with hv | hv
    · exact .inl ((ho.vars v).mpr ⟨houter.kept v hv (wanted_cons hwanted'), .inl hwanted'⟩)
    · rw [boundIn_singleton, ← hinner.schema] at hv
      exact .inr ((hi.vars v).mpr ⟨hv, .inl hwanted'⟩)
  case shows =>
    intro hread
    have hread' : ∀ b ∈ atoms, catalog.Readable store b.relation :=
      fun b hb => hread b (List.mem_append_left _ hb)
    obtain ⟨ts, hts, halike⟩ := Machine.shows_join (ho.shows _ (houter.shows hread'))
      (hi.shows _ ((hinner.shows (hread a (by simp))).of_exact _))
      ((q.pendingAfter atoms).filter fun c => ∀ v ∈ c.vars, v ∈ boundIn (atoms ++ [a]))
    refine ⟨ts, hts, ?_⟩
    simp only [value_join]
    have hpairs := pairs_iff_meet hbound hvars
      (shared_of_narrows houter hinner.schema ho hi) fun c hc =>
        applies_of_narrows hatoms houter hinner.schema ho hi (List.mem_filter.mp hc).1
          (of_decide_eq_true (List.mem_filter.mp hc).2)
    rw [map_solutions_append (catalog.table store)
      (splits_settled position hatoms hne) (fun ν μ ξ hν hμ => ?_) hpairs]
    · exact halike
    · rw [Atom.value_eq_value_iff.mpr fun v hv => hν v (hbound v hv),
        Atom.value_eq_value_iff.mpr fun v hv => hμ v (hvars v hv)]

end Step

/-! ## Faults -/

theorem unboundFault?_eq_none_iff {context : String} {vs : List Variable} :
    q.unboundFault? context vs = none ↔ ∀ v ∈ vs, v ∈ boundIn q.atoms := by
  rw [unboundFault?, Option.map_eq_none_iff, List.find?_eq_none]
  simp only [decide_eq_true_iff, not_not]
  rfl

theorem mem_distinguished {h : Head} {v : Variable} :
    v ∈ h.distinguished ↔ v ∈ h.outputs ∨ ∃ s, h.sum? = some s ∧ v ∈ s.vars := by
  rw [Head.distinguished, List.mem_eraseDups, List.mem_append, Head.sumVariables]
  cases h.sum? <;> simp

/-- A query is in order if it has atoms, which fit their relations, and if all variables of its
head and its comparisons occur in them. -/
theorem fault?_eq_none_iff :
    q.fault? catalog = none ↔
      q.atoms ≠ [] ∧ (∀ a ∈ q.atoms, atomFault? catalog a = none) ∧
        (∀ v ∈ q.head.distinguished, v ∈ boundIn q.atoms) ∧
          ∀ c ∈ q.comparisons, ∀ v ∈ c.vars, v ∈ boundIn q.atoms := by
  have hhead : q.headFault? = none ↔ ∀ v ∈ q.head.distinguished, v ∈ boundIn q.atoms := by
    simp only [headFault?, Option.or_eq_none_iff, Option.bind_eq_none_iff,
      unboundFault?_eq_none_iff, mem_distinguished]
    constructor
    · rintro ⟨houtputs, hsum⟩ v (hv | ⟨s, hs, hv⟩)
      · exact houtputs v hv
      · exact hsum s hs v hv
    · exact fun h => ⟨fun v hv => h v (.inl hv), fun s hs v hv => h v (.inr ⟨s, hs, hv⟩)⟩
  unfold fault?
  by_cases hne : q.atoms = []
  · simp [hne]
  · rw [if_neg hne, Option.or_eq_none_iff, Option.or_eq_none_iff, hhead,
      List.findSome?_eq_none_iff, List.findSome?_eq_none_iff]
    simp only [comparisonFault?, unboundFault?_eq_none_iff, hne, ne_eq, not_false_eq_true,
      true_and]

/-- Once all atoms are joined, every comparison is settled. -/
theorem filter_settled_atoms (hfault : q.fault? catalog = none) :
    q.comparisons.filter (q.settled q.atoms) = q.comparisons := by
  obtain ⟨_, _, _, hbound⟩ := fault?_eq_none_iff.mp hfault
  refine List.filter_eq_self.mpr fun c hc => settled_iff.mpr ?_
  by_cases h : ∃ a ∈ q.atoms, decidedBy c a = true
  · exact .inl h
  · exact .inr ⟨fun a ha hdecided => h ⟨a, ha, hdecided⟩, hbound c hc⟩

/-! ## Plans -/

theorem partition_pending {atoms later : List Atom} {a : Atom} {outer inner : Machine}
    (hatoms : q.atoms = atoms ++ a :: later)
    (houter : Joined store catalog q atoms (a :: later) outer) (hinner : inner.schema = a) :
    (q.pendingAfter atoms).partition
        (fun c => (JoinCondition.bind? outer.schema inner.schema c).isSome) =
      ((q.pendingAfter atoms).filter fun c => ∀ v ∈ c.vars, v ∈ boundIn (atoms ++ [a]),
        q.pendingAfter (atoms ++ [a])) := by
  have happlies : ∀ c ∈ q.pendingAfter atoms,
      (JoinCondition.bind? outer.schema inner.schema c).isSome =
        decide (∀ v ∈ c.vars, v ∈ boundIn (atoms ++ [a])) := by
    intro c hc
    rw [Bool.eq_iff_iff, decide_eq_true_iff, hinner]
    exact applies_iff hatoms houter hc
  rw [List.partition_eq_filter_filter, pendingAfter_concat]
  refine Prod.ext (List.filter_congr happlies) (List.filter_congr fun c hc => ?_)
  rw [Function.comp_apply, happlies c hc, decide_not]

theorem schemas_of_isLeaf {atoms : List Atom} {ms : List Machine} {position : Nat}
    (h : List.Forall₂ (fun x m => IsLeaf store catalog x.1 (q.selectionsAt x.2 x.1) m)
      (atoms.zipIdx position) ms) : ms.map Machine.schema = atoms := by
  induction atoms generalizing position ms with
  | nil =>
    cases h
    rfl
  | cons a atoms ih =>
    cases h with
    | cons hm hrest => rw [List.map_cons, hm.schema, ih hrest]

/-- Join a machine with the leaves that follow it, and tell which comparisons no join applied. -/
def joinPending (q : Query) (outer : Machine) (pending : List Comparison) :
    List Machine → Except PlanError (Machine × List Comparison)
  | [] => .ok (outer, pending)
  | inner :: later => do
    let applies (c : Comparison) := (JoinCondition.bind? outer.schema inner.schema c).isSome
    let (applied, remaining) := pending.partition applies
    let (outer, inner) ← q.joinSides pending outer inner later
    joinPending q (outer.join inner applied) remaining later

theorem joinLeaves_eq (outer : Machine) (pending : List Comparison) (later : List Machine) :
    q.joinLeaves outer pending later = (q.joinPending outer pending later).map Prod.fst := by
  induction later generalizing outer pending with
  | nil => rfl
  | cons inner later ih =>
    simp only [joinLeaves, joinPending]
    cases q.joinSides pending outer inner later with
    | error e => rfl
    | ok sides => exact ih ..

/-- A property of machines for some atoms that leaves have, and that narrowing and joining keep. The
comparisons that are applied are the query's, and a join may rely on its sides to have the variables
that they share. -/
structure Inherited (store : Storage) (catalog : Catalog) (q : Query)
    (P : List Atom → Machine → Prop) : Prop where
  leaf : ∀ {a cs m}, a ∈ q.atoms → cs ⊆ q.comparisons → leaf store catalog a cs = .ok m → P [a] m
  narrow : ∀ {needed atoms m m'}, P atoms m → narrow needed m = .ok m' → P atoms m'
  join : ∀ {atoms a outer inner cs}, P atoms outer → P [a] inner → cs ⊆ q.comparisons →
    (∀ v ∈ boundIn atoms, v ∈ boundIn [a] → v ∈ outer.schema.vars ∧ v ∈ inner.schema.vars) →
    P (atoms ++ [a]) (outer.join inner cs)

section Inherited

variable {P : List Atom → Machine → Prop}

/-- What the operators of a query's plan keep is inherited: a leaf is a scan or a selection on top
of one, and narrowing is a projection or nothing. -/
theorem Inherited.of_operators (hfault : q.fault? catalog = none)
    (scan : ∀ {a r m}, a ∈ q.atoms → catalog.relation? a.relation = some r → r.arity = a.arity →
      Machine.scan store r (catalog.relationPath a.relation) a = .ok m → P [a] m)
    (select : ∀ {atoms child cs m}, P atoms child → cs ⊆ q.comparisons →
      child.select cs = .ok m → P atoms m)
    (project : ∀ {atoms child targets m}, P atoms child → child.project targets = .ok m → P atoms m)
    (join : ∀ {atoms a outer inner cs}, P atoms outer → P [a] inner → cs ⊆ q.comparisons →
      (∀ v ∈ boundIn atoms, v ∈ boundIn [a] → v ∈ outer.schema.vars ∧ v ∈ inner.schema.vars) →
      P (atoms ++ [a]) (outer.join inner cs)) :
    Inherited store catalog q P := by
  constructor
  case leaf =>
    intro a cs m ha hcs hm
    obtain ⟨_, hatoms, _, _⟩ := fault?_eq_none_iff.mp hfault
    obtain ⟨r, hr, harity⟩ := exists_relation_of_atomFault? (hatoms a ha)
    simp only [Query.leaf, hr] at hm
    obtain ⟨bottom, hscan, hm⟩ := exists_of_bind_eq_ok hm
    have hbottom : P [a] bottom := scan ha hr harity (of_mapError_eq_ok hscan)
    split at hm
    · exact select hbottom hcs (of_mapError_eq_ok hm)
    · cases hm
      exact hbottom
  case narrow =>
    intro needed atoms m m' h hm
    simp only [Query.narrow] at hm
    split at hm
    · cases hm
      exact h
    · exact project h (of_mapError_eq_ok hm)
  case join => exact join

theorem Inherited.sides (h : Inherited store catalog q P) {pending : List Comparison}
    {outer inner outer' inner' : Machine} {later : List Machine} {atoms : List Atom} {a : Atom}
    (hsides : q.joinSides pending outer inner later = .ok (outer', inner'))
    (houter : P atoms outer) (hinner : P [a] inner) : P atoms outer' ∧ P [a] inner' := by
  unfold joinSides at hsides
  split at hsides
  · cases hsides
    exact ⟨houter, hinner⟩
  · obtain ⟨o, ho, hsides⟩ := exists_of_bind_eq_ok hsides
    obtain ⟨i, hi, hsides⟩ := exists_of_bind_eq_ok hsides
    cases hsides
    exact ⟨h.narrow houter ho, h.narrow hinner hi⟩

/-- The remaining leaves can be joined, and the invariant holds in the end. -/
theorem exists_joinPending (hP : Inherited store catalog q P) {atoms later : List Atom}
    {outer : Machine} {ms : List Machine} {position : Nat} (hatoms : q.atoms = atoms ++ later)
    (hne : atoms ≠ []) (houter : Joined store catalog q atoms later outer) (hatomsP : P atoms outer)
    (hleaves : List.Forall₂
      (fun x m => IsLeaf store catalog x.1 (q.selectionsAt x.2 x.1) m ∧ P [x.1] m)
      (later.zipIdx (position + 1)) ms) :
    ∃ m, q.joinPending outer (q.pendingAfter atoms) ms = .ok (m, q.pendingAfter q.atoms) ∧
      Joined store catalog q q.atoms [] m ∧ P q.atoms m := by
  induction later generalizing atoms outer ms position with
  | nil =>
    cases hleaves
    rw [List.append_nil] at hatoms
    exact ⟨outer, by rw [hatoms]; rfl, hatoms ▸ houter, hatoms ▸ hatomsP⟩
  | cons a later ih =>
    cases hleaves with
    | @cons _ inner _ ms hinner hrest =>
      have hschemas := schemas_of_isLeaf (hrest.imp fun _ _ h => h.1)
      obtain ⟨outer', inner', hsides, ho, hi⟩ :=
        exists_joinSides store q (q.pendingAfter atoms) outer inner ms
      rw [hschemas] at ho hi
      obtain ⟨houterP, hinnerP⟩ := hP.sides hsides hatomsP hinner.2
      have hshared := shared_of_narrows houter hinner.1.schema ho hi
      have happlied : ((q.pendingAfter atoms).filter fun c => ∀ v ∈ c.vars,
          v ∈ boundIn (atoms ++ [a])) ⊆ q.comparisons := by
        intro c hc
        exact (mem_joinComparisons.mp (mem_pendingAfter.mp (List.mem_filter.mp hc).1).1).1
      obtain ⟨m, hm, hjoined⟩ := ih (by simp [hatoms]) (by simp)
        (houter.step hatoms hne hinner.1 ho hi) (hP.join houterP hinnerP happlied hshared) hrest
      refine ⟨m, ?_, hjoined⟩
      simp only [joinPending, partition_pending hatoms houter hinner.1.schema, hsides, bind,
        Except.bind, hm]

end Inherited

theorem vars_of_selectionsAt {position : Nat} {a : Atom} :
    ∀ c ∈ q.selectionsAt position a, ∀ v ∈ c.vars, v ∈ a.vars := by
  intro c hc
  by_cases hground : c.isGround = true
  · simp [Comparison.isGround_iff.mp hground]
  · refine decidedBy_iff.mp ?_
    simpa [hground] using (List.mem_filter.mp hc).2

/-- The leaves can be made. -/
theorem exists_leaves {P : List Atom → Machine → Prop} (hP : Inherited store catalog q P)
    (hfault : q.fault? catalog = none) (hopen : ∀ a ∈ q.atoms, catalog.Opens store a.relation) :
    ∃ ms, q.leaves store catalog = .ok ms ∧
      List.Forall₂ (fun x m => IsLeaf store catalog x.1 (q.selectionsAt x.2 x.1) m ∧ P [x.1] m)
        q.atoms.zipIdx ms := by
  obtain ⟨_, hatoms, _, _⟩ := fault?_eq_none_iff.mp hfault
  refine exists_mapM fun ⟨a, position⟩ hmem => ?_
  have ha : a ∈ q.atoms := List.mem_of_getElem? (List.mem_zipIdx_iff_getElem?.mp hmem)
  obtain ⟨m, hm, hschema, hshows⟩ := exists_leaf (hatoms a ha) (hopen a ha) vars_of_selectionsAt
  exact ⟨m, hm, ⟨hschema, hshows⟩, hP.leaf ha (List.filter_subset_self _) hm⟩

/-- Once all atoms are joined, no comparison is pending. -/
theorem pendingAfter_atoms (hfault : q.fault? catalog = none) : q.pendingAfter q.atoms = [] := by
  obtain ⟨_, _, _, hbound⟩ := fault?_eq_none_iff.mp hfault
  refine List.filter_eq_nil_iff.mpr fun c hc hpending => ?_
  exact of_decide_eq_true hpending (hbound c (mem_joinComparisons.mp hc).1)

/-- What the head asks for is put on top of the joined leaves. -/
theorem plan_eq_finish {first m : Machine} {later : List Machine} {pending : List Comparison}
    (hfault : q.fault? catalog = none) (hleaves : q.leaves store catalog = .ok (first :: later))
    (hjoin : q.joinPending first q.joinComparisons later = .ok (m, pending)) :
    q.plan store catalog = q.finish m := by
  simp only [plan, hfault, hleaves, bind, Except.bind, joinLeaves_eq, hjoin, Except.map]

/-- **The leaves of a query in order can be joined**, every comparison is applied, and the invariant
holds for all atoms, as does everything that machines inherit. -/
theorem exists_chain {P : List Atom → Machine → Prop} (hP : Inherited store catalog q P)
    (hfault : q.fault? catalog = none) (hopen : ∀ a ∈ q.atoms, catalog.Opens store a.relation) :
    ∃ first later m, q.leaves store catalog = .ok (first :: later) ∧
      q.joinPending first q.joinComparisons later = .ok (m, []) ∧
      q.plan store catalog = q.finish m ∧ Joined store catalog q q.atoms [] m ∧ P q.atoms m := by
  obtain ⟨ms, hms, hleaves⟩ := exists_leaves hP hfault hopen
  obtain ⟨hne, _, _, _⟩ := fault?_eq_none_iff.mp hfault
  obtain ⟨a, later, hatoms⟩ := List.exists_cons_of_ne_nil hne
  rw [hatoms, List.zipIdx_cons] at hleaves
  cases hleaves with
  | @cons _ first _ ms hfirst hrest =>
    have ha : a ∈ q.atoms := by simp [hatoms]
    have hjoined : Joined store catalog q [a] later first := by
      constructor
      case bound => simp [hfirst.1.schema, boundIn_singleton]
      case kept =>
        intro v hv _
        rw [hfirst.1.schema]
        exact boundIn_singleton.mp hv
      case shows =>
        intro hread
        rw [← selectionsAt_zero ha]
        exact (hfirst.1.shows (hread a (by simp))).of_exact _
    have hpending : q.pendingAfter [a] = q.joinComparisons := by
      refine List.filter_eq_self.mpr fun c hc => decide_eq_true fun hvars => ?_
      obtain ⟨_, _, hno⟩ := mem_joinComparisons.mp hc
      exact hno a ha (decidedBy_iff.mpr fun v hv => boundIn_singleton.mp (hvars v hv))
    obtain ⟨m, hm, hall⟩ := exists_joinPending hP hatoms (by simp) hjoined hfirst.2 hrest
    rw [hpending, pendingAfter_atoms hfault] at hm
    exact ⟨first, ms, m, hms, hm, plan_eq_finish hfault hms hm, hall⟩

/-- The property that all machines have. -/
theorem inherited_true : Inherited store catalog q fun _ _ => True :=
  ⟨fun _ _ _ => trivial, fun _ _ => trivial, fun _ _ _ _ => trivial⟩

theorem exists_joined (hfault : q.fault? catalog = none)
    (hopen : ∀ a ∈ q.atoms, catalog.Opens store a.relation) :
    ∃ m, q.plan store catalog = q.finish m ∧ Joined store catalog q q.atoms [] m := by
  obtain ⟨_, _, m, -, -, hplan, hjoined, -⟩ := exists_chain inherited_true hfault hopen
  exact ⟨m, hplan, hjoined⟩

theorem Joined.shows_solutions {m : Machine} (hfault : q.fault? catalog = none)
    (h : Joined store catalog q q.atoms [] m)
    (hread : ∀ a ∈ q.atoms, catalog.Readable store a.relation) :
    m.Shows store q.head.sum?.isSome
      (solutions (catalog.table store) q.atoms q.comparisons) := by
  have hshows := h.shows hread
  rwa [filter_settled_atoms hfault] at hshows

end Query

end Conjunct
