import Conjunct.Proofs.Frozen
import Mathlib.Data.List.Perm.Subperm

/-!
# Cores

A query is a *core* if it cannot be folded into itself without hitting every atom. A core is as
small as its answers allow: leaving out some of its atoms changes the answers over some tables
(`exists_table_of_isCore`).

Minimizing takes an atom away if the query can be folded onto the others by moving variables of
that atom alone. So a minimized query need not be a core, but only *entangled* foldings are left: a
folding that drops an atom moves a variable which the atom shares with another, and it moves
variables of other atoms as well or drops a second atom at the same time.

**Theorem (`entangled_of_minimize`).** Every folding of a minimized query that drops an atom is
entangled; and if no two atoms of a query share a variable that is not distinguished, the minimized
query is a core.

The proof turns a folding that is not entangled into one that the search for a redundant atom
tries: the search is complete for the replacements that move variables of one atom
(`isRedundant_of_drops`).
-/

namespace Conjunct

namespace Query

/-! ## Foldings into the query itself -/

/-- A replacement that keeps the distinguished variables and turns every atom of a query into an
atom of it. -/
structure Folds (q : Query) (σ : Variable → Term) : Prop where
  fixed : ∀ v ∈ q.head.distinguished, σ v = .var v
  inside : ∀ a ∈ q.atoms, a.replace σ ∈ q.atoms

/-- An atom of a query into which a replacement turns none. -/
structure Drops (q : Query) (σ : Variable → Term) (b : Atom) : Prop where
  mem : b ∈ q.atoms
  missed : ∀ a ∈ q.atoms, a.replace σ ≠ b

/-- No folding drops an atom. -/
def IsCore (q : Query) : Prop :=
  ∀ σ, q.Folds σ → ∀ b, ¬ q.Drops σ b

/-- A replacement that drops an atom by more than moving variables of this atom alone. -/
structure Entangled (q : Query) (σ : Variable → Term) (b : Atom) : Prop where
  shared : ∃ v ∈ b.vars, σ v ≠ .var v ∧ ∃ a ∈ q.atoms, a ≠ b ∧ v ∈ a.vars
  wide : (∃ v ∈ boundIn q.atoms, v ∉ b.vars ∧ σ v ≠ .var v) ∨ ∃ c, c ≠ b ∧ q.Drops σ c

/-- No two atoms have a variable in common, the distinguished ones apart. -/
def Unshared (q : Query) : Prop :=
  ∀ a ∈ q.atoms, ∀ b ∈ q.atoms, ∀ v ∈ a.vars, v ∈ b.vars → v ∉ q.head.distinguished → a = b

variable {q part : Query} {σ : Variable → Term} {b : Atom}

/-! ## The search is complete -/

/-- **The search is complete.** An atom is redundant if a folding drops it, and no other, by moving
variables of that atom alone. -/
theorem isRedundant_of_drops {position : Nat} (hb : q.body[position]? = some (.atom b))
    (hfolds : q.Folds σ) (hdrops : q.Drops σ b)
    (hnarrow : ∀ v ∈ boundIn q.atoms, v ∉ b.vars → σ v = .var v)
    (honly : ∀ c, c ≠ b → ¬ q.Drops σ c) : q.isRedundant position = true := by
  by_cases htwice : b ∈ (q.without position).atoms
  · exact isRedundant_of_twice hb htwice
  -- The folding may do as it likes with variables that do not occur in the query.
  let τ : Variable → Term := fun v => if v ∈ b.vars then σ v else .var v
  have hsame : ∀ a ∈ q.atoms, a.replace τ = a.replace σ := by
    refine fun a ha => Atom.replace_congr fun v hv => ?_
    show (if v ∈ b.vars then σ v else .var v) = σ v
    split
    · rfl
    · next hvb => exact (hnarrow v (mem_boundIn.mpr ⟨a, ha, hv⟩) hvb).symm
  have hconfines : b.Confines q.head.distinguished τ := by
    intro v hmoves
    by_cases hvb : v ∈ b.vars
    · have hτ : τ v = σ v := if_pos hvb
      exact ⟨hvb, fun hv => hmoves (hτ.trans (hfolds.fixed v hv))⟩
    · exact absurd (if_neg hvb) hmoves
  refine Spares.isRedundant ⟨hb, hconfines, fun c => ?_⟩
  rw [mem_atoms_without_iff hb htwice, List.map_congr_left hsame, List.mem_map]
  constructor
  · rintro ⟨a, ha, rfl⟩
    exact ⟨hfolds.inside a ha, hdrops.missed a ha⟩
  · rintro ⟨hc, hne⟩
    by_contra hno
    push Not at hno
    exact honly c hne ⟨hc, hno⟩

/-! ## What is left after minimizing -/

theorem not_isRedundant_reduce (q : Query) (position : Nat) :
    q.reduce.1.isRedundant position = false := by
  by_cases hlt : position < q.reduce.1.body.length
  · have hnone := List.find?_eq_none.mp (firstRedundant?_reduce q) position
      (List.mem_range.mpr hlt)
    simpa using hnone
  · have hout : q.reduce.1.body[position]? = none := List.getElem?_eq_none (Nat.le_of_not_lt hlt)
    simp [isRedundant, hout]

/-- A query without a redundant atom is minimized already. -/
theorem reduce_eq_self (h : q.firstRedundant? = none) : q.reduce = (q, []) := by
  rw [reduce]
  split
  · rfl
  · next position hfirst =>
    rw [h] at hfirst
    cases hfirst

/-- Without a redundant atom, a folding that drops an atom moves variables of others or drops a
second one. -/
theorem wide_of_drops (hno : ∀ position, q.isRedundant position = false) (hfolds : q.Folds σ)
    (hdrops : q.Drops σ b) :
    (∃ v ∈ boundIn q.atoms, v ∉ b.vars ∧ σ v ≠ .var v) ∨ ∃ c, c ≠ b ∧ q.Drops σ c := by
  by_contra hnarrow
  push Not at hnarrow
  obtain ⟨position, hb⟩ := List.mem_iff_getElem?.mp (mem_atoms.mp hdrops.mem)
  have hredundant := isRedundant_of_drops hb hfolds hdrops hnarrow.1 hnarrow.2
  rw [hno position] at hredundant
  cases hredundant

/-- A folding that moves no shared variable of an atom it drops could as well move nothing but the
variables of this atom. -/
theorem shared_of_drops (hno : ∀ position, q.isRedundant position = false) (hfolds : q.Folds σ)
    (hdrops : q.Drops σ b) :
    ∃ v ∈ b.vars, σ v ≠ .var v ∧ ∃ a ∈ q.atoms, a ≠ b ∧ v ∈ a.vars := by
  by_contra hprivate
  push Not at hprivate
  let τ : Variable → Term := fun v => if v ∈ b.vars then σ v else .var v
  have hb : b.replace τ = b.replace σ := Atom.replace_congr fun v hv => if_pos hv
  have hothers : ∀ a ∈ q.atoms, a ≠ b → a.replace τ = a := by
    intro a ha hne
    refine (Atom.replace_congr fun v hv => ?_).trans a.replace_var
    show (if v ∈ b.vars then σ v else .var v) = .var v
    split
    · next hvb =>
      by_contra hmoves
      exact hprivate v hvb hmoves a ha hne hv
    · rfl
  have hnew : b.replace τ ≠ b := hb ▸ hdrops.missed b hdrops.mem
  have hfolds' : q.Folds τ := by
    constructor
    · intro v hv
      show (if v ∈ b.vars then σ v else .var v) = .var v
      rw [hfolds.fixed v hv, ite_self]
    · intro a ha
      by_cases hab : a = b
      · rw [hab, hb]
        exact hfolds.inside b hdrops.mem
      · rwa [hothers a ha hab]
  have hdrops' : q.Drops τ b := by
    refine ⟨hdrops.mem, fun a ha => ?_⟩
    by_cases hab : a = b
    · rwa [hab]
    · rwa [hothers a ha hab]
  rcases wide_of_drops hno hfolds' hdrops' with ⟨v, _, hv, hmoves⟩ | ⟨c, hne, hc⟩
  · exact hmoves (if_neg hv)
  · exact hc.missed c hc.mem (hothers c hc.mem hne)

theorem isCore_of_unshared (hno : ∀ position, q.isRedundant position = false)
    (hunshared : q.Unshared) : q.IsCore := by
  intro σ hfolds b hdrops
  obtain ⟨v, hvb, hmoves, a, ha, hne, hva⟩ := shared_of_drops hno hfolds hdrops
  have hfree : v ∉ q.head.distinguished := fun hv => hmoves (hfolds.fixed v hv)
  exact hne (hunshared a ha b hdrops.mem v hva hvb hfree)

theorem FoldsOnto.unshared (h : FoldsOnto q part) (hunshared : q.Unshared) : part.Unshared := by
  intro a ha b hb v hva hvb hv
  rw [h.head] at hv
  exact hunshared a (h.atoms.subset ha) b (h.atoms.subset hb) v hva hvb hv

/-- Of equal atoms each one is redundant, so none are left. -/
theorem nodup_body (hno : ∀ position, q.isRedundant position = false)
    (hcs : q.comparisons = []) : q.body.Nodup := by
  refine List.nodup_iff_getElem?_ne_getElem?.mpr fun i j hij hj heq => ?_
  obtain ⟨literal, hliteral⟩ : ∃ literal, q.body[j]? = some literal :=
    ⟨_, List.getElem?_eq_getElem hj⟩
  obtain ⟨a, rfl⟩ := exists_atom_of_mem_body hcs (List.mem_of_getElem? hliteral)
  have ha : a ∈ (q.without i).atoms :=
    mem_atoms.mpr (List.mem_eraseIdx_iff_getElem?.mpr ⟨j, Nat.ne_of_gt hij, hliteral⟩)
  have hredundant := isRedundant_of_twice (heq.trans hliteral) ha
  rw [hno i] at hredundant
  cases hredundant

/-- A proper part of a body without equal atoms lacks one of the atoms. -/
theorem exists_atom_of_ne (hno : ∀ position, q.isRedundant position = false)
    (hcs : q.comparisons = []) (hbody : part.body.Sublist q.body) (hne : part.body ≠ q.body) :
    ∃ b ∈ q.atoms, b ∉ part.atoms := by
  by_contra hall
  push Not at hall
  have hsubset : q.body ⊆ part.body := by
    intro literal hliteral
    obtain ⟨a, rfl⟩ := exists_atom_of_mem_body hcs hliteral
    exact mem_atoms.mp (hall a (mem_atoms.mpr hliteral))
  have hlength := (List.subperm_of_subset (nodup_body hno hcs) hsubset).length_le
  exact hne (hbody.eq_of_length_le hlength)

/-! ## Cores are smallest -/

/-- Leaving out an atom of a core changes the answers over some table. -/
theorem exists_table_of_isCore (hcore : q.IsCore) (hcs : q.comparisons = [])
    (hsum : q.head.sum? = none) (hhead : part.head = q.head) (hbody : part.body.Sublist q.body)
    (hbound : ∀ v ∈ part.head.outputs, v ∈ boundIn part.atoms) {b : Atom} (hb : b ∈ q.atoms)
    (hmissing : b ∉ part.atoms) :
    ∃ table t, ¬ (t ∈ part.answers table ↔ t ∈ q.answers table) := by
  by_contra hsame
  push Not at hsame
  have hatoms : part.atoms.Sublist q.atoms := hbody.filterMap _
  obtain ⟨σ, hσ, hinto⟩ := exists_folds_of_answers hcs hsum hhead hbody hbound
    fun table t => (hsame table t).mp
  exact hcore σ ⟨hσ, fun a ha => hatoms.subset (hinto a ha)⟩ b
    ⟨hb, fun a ha heq => hmissing (heq ▸ hinto a ha)⟩

/-! ## Minimized queries -/

/-- **Only entangled foldings are left after minimizing.** If no two atoms share a variable that is
not distinguished, none is left at all: the minimized query is a core, and no proper part of it has
the same answers. -/
theorem entangled_of_minimize (hcs : q.comparisons = []) (hsum : q.head.sum? = none) :
    ∃ minimized removals, q.minimize = .ok (minimized, removals) ∧
      (∀ σ b, minimized.Folds σ → minimized.Drops σ b → minimized.Entangled σ b) ∧
      (q.Unshared → minimized.IsCore ∧
        ∀ part : Query, part.head = minimized.head → part.body.Sublist minimized.body →
          part.body ≠ minimized.body → (∀ v ∈ part.head.outputs, v ∈ boundIn part.atoms) →
          ∃ table t, ¬ (t ∈ part.answers table ↔ t ∈ minimized.answers table)) := by
  have hfolds := foldsOnto_reduce q
  have hno := not_isRedundant_reduce q
  have hcs' : q.reduce.1.comparisons = [] := List.sublist_nil.mp (hcs ▸ hfolds.comparisons)
  have hsum' : q.reduce.1.head.sum? = none := by rw [hfolds.head, hsum]
  refine ⟨_, _, minimize_eq_ok hcs, fun σ b hσ hdrops => ?_, fun hunshared => ?_⟩
  · exact ⟨shared_of_drops hno hσ hdrops, wide_of_drops hno hσ hdrops⟩
  · have hcore : q.reduce.1.IsCore := isCore_of_unshared hno (hfolds.unshared hunshared)
    refine ⟨hcore, fun part hhead hbody hne hbound => ?_⟩
    obtain ⟨b, hb, hmissing⟩ := exists_atom_of_ne hno hcs' hbody hne
    exact exists_table_of_isCore hcore hcs' hsum' hhead hbody hbound hb hmissing

/-- A path of three edges into a loop. -/
def pathIntoLoop : Query :=
  let edge (v w : String) : Literal := .atom ⟨"R", [.var ⟨v⟩, .var ⟨w⟩]⟩
  ⟨⟨"Q", [], none⟩, [edge "x" "y", edge "y" "z", edge "z" "w", edge "w" "w"]⟩

/-- One step along the path. -/
def alongPath : Variable → Term
  | ⟨"x"⟩ => .var ⟨"y"⟩
  | ⟨"y"⟩ => .var ⟨"z"⟩
  | ⟨"z"⟩ => .var ⟨"w"⟩
  | v => .var v

/-- The loop of the path. -/
def loop : Query :=
  ⟨⟨"Q", [], none⟩, [.atom ⟨"R", [.var ⟨"w"⟩, .var ⟨"w"⟩]⟩]⟩

theorem folds_alongPath : pathIntoLoop.Folds alongPath :=
  ⟨by decide, by decide⟩

theorem drops_alongPath : pathIntoLoop.Drops alongPath ⟨"R", [.var ⟨"x"⟩, .var ⟨"y"⟩]⟩ :=
  ⟨by decide, by decide⟩

theorem minimize_pathIntoLoop : pathIntoLoop.minimize = .ok (pathIntoLoop, []) := by
  have hfirst : pathIntoLoop.firstRedundant? = none := by decide +kernel
  rw [minimize_eq_ok rfl, reduce_eq_self hfirst]

/-- The path is left as it is, though one step along it drops its first edge, and though its loop
alone has the same answers. -/
theorem not_isCore_pathIntoLoop :
    pathIntoLoop.comparisons = [] ∧ pathIntoLoop.head.sum? = none ∧
      pathIntoLoop.minimize = .ok (pathIntoLoop, []) ∧ ¬ pathIntoLoop.IsCore ∧
      loop.head = pathIntoLoop.head ∧ loop.body.Sublist pathIntoLoop.body ∧
      loop.body ≠ pathIntoLoop.body ∧
      ∀ table t, t ∈ loop.answers table ↔ t ∈ pathIntoLoop.answers table := by
  refine ⟨rfl, rfl, minimize_pathIntoLoop, fun hcore => hcore _ folds_alongPath _ drops_alongPath,
    rfl, by decide, by decide, ?_⟩
  have hfolds : FoldsOnto pathIntoLoop loop :=
    ⟨rfl, by decide, fun _ => .var ⟨"w"⟩, by decide, by decide⟩
  exact fun table t => hfolds.mem_answers_iff table rfl (by decide) (by decide)

theorem entangled_of_minimize_pathIntoLoop :
    pathIntoLoop.comparisons = [] ∧ pathIntoLoop.head.sum? = none ∧
      pathIntoLoop.Entangled alongPath ⟨"R", [.var ⟨"x"⟩, .var ⟨"y"⟩]⟩ ∧
      (pairsByFirst ⟨"Q", [⟨"x"⟩], none⟩ []).Unshared ∧
      ∃ minimized removals,
        (pairsByFirst ⟨"Q", [⟨"x"⟩], none⟩ []).minimize = .ok (minimized, removals) ∧
        minimized.atoms.length = 1 ∧ minimized.IsCore := by
  obtain ⟨minimized, removals, hminimize, hentangled, _⟩ :=
    entangled_of_minimize (q := pathIntoLoop) rfl rfl
  obtain ⟨single, removals', hminimize', _, hsingle⟩ :=
    entangled_of_minimize (q := pairsByFirst ⟨"Q", [⟨"x"⟩], none⟩ []) rfl rfl
  have hunshared : (pairsByFirst ⟨"Q", [⟨"x"⟩], none⟩ []).Unshared := by
    rw [Unshared]
    decide
  have hlength : (pairsByFirst ⟨"Q", [⟨"x"⟩], none⟩ []).minimize.toOption.map
      (fun r => r.1.atoms.length) = some 1 := by cbv
  rw [minimize_pathIntoLoop] at hminimize
  cases hminimize
  rw [hminimize'] at hlength
  exact ⟨rfl, rfl, hentangled _ _ folds_alongPath drops_alongPath, hunshared, single, removals',
    hminimize', Option.some.inj hlength, (hsingle hunshared).1⟩

end Query

end Conjunct
