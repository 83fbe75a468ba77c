import Conjunct.Proofs.Core
import Conjunct.Proofs.Shedding

/-!
# Minimizing in any order

Minimizing sheds atoms one after the other. Which one comes first matters little: two runs that both
go on until nothing can be shed end in the same set of atoms, up to a renaming of the variables that
are not fixed.

**Theorem (`renamed_of_tight`).** All tight sets that a set of atoms shrinks to are renamed forms of
each other.

By `exchange`, after two different first steps the runs can be led to one set by one more step each,
or what they have left is renamed already. The rest is an induction on the set. Renaming carries a
run along (`ShrinksTo.rename`).

**Theorem (`Query.minimize_of_perm`).** Minimizing a query and minimizing it with its atoms in
another order leaves equally many atoms, and the same ones up to a renaming.
-/

namespace Conjunct

variable {fixed : List Variable} {A B C : Finset Atom} {a : Atom} {σ : Variable → Term}
  {ρ : Equiv.Perm Variable}

/-! ## Renaming -/

theorem Atom.rename_rename (ρ π : Variable → Variable) (a : Atom) :
    (a.rename ρ).rename π = a.rename fun v => π (ρ v) :=
  a.replace_replace _ _

theorem Atom.rename_symm_rename (ρ : Equiv.Perm Variable) (a : Atom) :
    (a.rename ρ).rename ρ.symm = a := by
  rw [rename_rename]
  refine Eq.trans ?_ a.replace_var
  exact congrArg a.replace (funext fun v => congrArg Term.var (ρ.symm_apply_apply v))

theorem Atom.rename_injective (ρ : Equiv.Perm Variable) : Function.Injective (Atom.rename ρ) :=
  Function.LeftInverse.injective (rename_symm_rename ρ)

/-- A set of atoms is another one with its variables renamed, apart from the fixed ones. -/
def Renamed (fixed : List Variable) (A B : Finset Atom) : Prop :=
  ∃ ρ : Equiv.Perm Variable, (∀ v ∈ fixed, ρ v = v) ∧ A.image (Atom.rename ρ) = B

namespace Renamed

theorem refl (A : Finset Atom) : Renamed fixed A A := by
  refine ⟨Equiv.refl _, fun _ _ => rfl, ?_⟩
  have hid : Atom.rename (Equiv.refl Variable) = id := funext fun a => a.replace_var
  rw [hid, Finset.image_id]

theorem symm (h : Renamed fixed A B) : Renamed fixed B A := by
  obtain ⟨ρ, hρ, rfl⟩ := h
  refine ⟨ρ.symm, fun v hv => ρ.symm_apply_eq.mpr (hρ v hv).symm, ?_⟩
  have hid : Atom.rename ρ.symm ∘ Atom.rename ρ = id := funext (Atom.rename_symm_rename ρ)
  rw [Finset.image_image, hid, Finset.image_id]

theorem trans (h : Renamed fixed A B) (h' : Renamed fixed B C) : Renamed fixed A C := by
  obtain ⟨ρ, hρ, rfl⟩ := h
  obtain ⟨π, hπ, rfl⟩ := h'
  refine ⟨ρ.trans π, fun v hv => ?_, ?_⟩
  · show π (ρ v) = v
    rw [hρ v hv, hπ v hv]
  · have hcomp : Atom.rename π ∘ Atom.rename ρ = Atom.rename (ρ.trans π) :=
      funext (Atom.rename_rename ρ π)
    rw [Finset.image_image, hcomp]

theorem card_eq (h : Renamed fixed A B) : A.card = B.card := by
  obtain ⟨ρ, _, rfl⟩ := h
  exact (Finset.card_image_of_injective A (Atom.rename_injective ρ)).symm

end Renamed

/-! ## Shrinking -/

/-- A set of atoms sheds some of them, one at a time, until another set is left. -/
inductive ShrinksTo (fixed : List Variable) : Finset Atom → Finset Atom → Prop
  | refl (A : Finset Atom) : ShrinksTo fixed A A
  | shed {A B : Finset Atom} {a : Atom} {σ : Variable → Term} :
      Sheds fixed A a σ → ShrinksTo fixed (A.erase a) B → ShrinksTo fixed A B

/-- A set of atoms from which nothing can be shed. -/
def Tight (fixed : List Variable) (A : Finset Atom) : Prop :=
  ∀ a σ, ¬ Sheds fixed A a σ

theorem Sheds.ssubset (h : Sheds fixed A a σ) : A.erase a ⊂ A :=
  Finset.erase_ssubset h.mem

theorem ShrinksTo.trans (h : ShrinksTo fixed A B) (h' : ShrinksTo fixed B C) :
    ShrinksTo fixed A C := by
  induction h with
  | refl => exact h'
  | shed ha _ ih => exact .shed ha (ih h')

theorem exists_tight (fixed : List Variable) (A : Finset Atom) :
    ∃ B, ShrinksTo fixed A B ∧ Tight fixed B := by
  induction A using Finset.strongInduction with
  | H A ih =>
    by_cases htight : Tight fixed A
    · exact ⟨A, .refl A, htight⟩
    · rw [Tight] at htight
      push Not at htight
      obtain ⟨a, σ, ha⟩ := htight
      obtain ⟨B, hB, htight⟩ := ih _ ha.ssubset
      exact ⟨B, .shed ha hB, htight⟩

/-! ## Renamed runs -/

/-- A replacement, acting on renamed variables. -/
def conjugated (ρ : Equiv.Perm Variable) (σ : Variable → Term) (v : Variable) : Term :=
  (σ (ρ.symm v)).replace fun w => .var (ρ w)

theorem replace_conjugated (ρ : Equiv.Perm Variable) (σ : Variable → Term) (a : Atom) :
    (a.rename ρ).replace (conjugated ρ σ) = (a.replace σ).rename ρ := by
  rw [Atom.rename, Atom.rename, Atom.replace_replace, Atom.replace_replace]
  refine Atom.replace_congr fun v _ => ?_
  show conjugated ρ σ (ρ v) = _
  rw [conjugated, ρ.symm_apply_apply]

theorem Sheds.rename (hρ : ∀ v ∈ fixed, ρ v = v) (h : Sheds fixed A a σ) :
    Sheds fixed (A.image (Atom.rename ρ)) (a.rename ρ) (conjugated ρ σ) := by
  refine ⟨Finset.mem_image_of_mem _ h.mem, fun v hmoves => ?_, ?_⟩
  · have hmoved : σ (ρ.symm v) ≠ .var (ρ.symm v) := by
      intro hkept
      refine hmoves ?_
      rw [conjugated, hkept]
      exact congrArg Term.var (ρ.apply_symm_apply v)
    obtain ⟨hvars, hfree⟩ := h.confines _ hmoved
    refine ⟨Atom.mem_vars.mpr (List.mem_map.mpr ⟨_, Atom.mem_vars.mp hvars, ?_⟩), fun hv => ?_⟩
    · exact congrArg Term.var (ρ.apply_symm_apply v)
    · rw [ρ.symm_apply_eq.mpr (hρ v hv).symm] at hfree
      exact hfree hv
  · have hcomm : Atom.replace (conjugated ρ σ) ∘ Atom.rename ρ = Atom.rename ρ ∘ Atom.replace σ :=
      funext (replace_conjugated ρ σ)
    rw [Finset.image_image, hcomm, ← Finset.image_image, h.image,
      Finset.image_erase (Atom.rename_injective ρ)]

theorem ShrinksTo.rename (hρ : ∀ v ∈ fixed, ρ v = v) (h : ShrinksTo fixed A B) :
    ShrinksTo fixed (A.image (Atom.rename ρ)) (B.image (Atom.rename ρ)) := by
  induction h with
  | refl => exact .refl _
  | shed ha _ ih =>
    rw [Finset.image_erase (Atom.rename_injective ρ)] at ih
    exact .shed (ha.rename hρ) ih

theorem Tight.renamed (hA : Tight fixed A) (h : Renamed fixed A B) : Tight fixed B := by
  intro b τ hb
  obtain ⟨ρ, hρ, rfl⟩ := h.symm
  exact hA _ _ (hb.rename hρ)

/-! ## Confluence -/

/-- **All tight sets that a set of atoms shrinks to are renamed forms of each other.** -/
theorem renamed_of_tight (hB : ShrinksTo fixed A B) (htightB : Tight fixed B)
    (hC : ShrinksTo fixed A C) (htightC : Tight fixed C) : Renamed fixed B C := by
  induction A using Finset.strongInduction generalizing B C with
  | H A ih =>
    cases hB with
    | refl =>
      cases hC with
      | refl => exact .refl _
      | shed hb _ => exact absurd hb (htightB _ _)
    | @shed _ _ a σ ha hB =>
      cases hC with
      | refl => exact absurd ha (htightC _ _)
      | @shed _ _ b τ hb hC =>
        by_cases hab : a = b
        · subst hab
          exact ih _ ha.ssubset hB htightB hC htightC
        rcases exchange hab ha hb with ⟨⟨τ', hτ'⟩, σ', hσ'⟩ | ⟨ρ, hρ, heq⟩
        · -- Both runs may as well go on to the set without the two atoms.
          obtain ⟨D, hD, htightD⟩ := exists_tight fixed ((A.erase a).erase b)
          have hleft : Renamed fixed B D := ih _ ha.ssubset hB htightB (.shed hτ' hD) htightD
          rw [Finset.erase_right_comm] at hD
          have hright : Renamed fixed D C := ih _ hb.ssubset (.shed hσ' hD) htightD hC htightC
          exact hleft.trans hright
        · have hrun := hC.rename hρ
          rw [heq] at hrun
          have hrenamed : Renamed fixed C (C.image (Atom.rename ρ)) := ⟨ρ, hρ, rfl⟩
          exact (ih _ ha.ssubset hB htightB hrun (htightC.renamed hrenamed)).trans hrenamed.symm

namespace Query

variable {p q : Query} {position : Nat}

/-! ## Runs of the minimizer -/

/-- Taking a redundant atom away sheds it, or leaves the set of atoms as it is. -/
theorem shrinksTo_without (h : q.isRedundant position = true) :
    ShrinksTo q.head.distinguished q.atoms.toFinset (q.without position).atoms.toFinset := by
  obtain ⟨a, σ, ha, hσ, honto⟩ := exists_spares h
  by_cases htwice : a ∈ (q.without position).atoms
  · have hsame : (q.without position).atoms.toFinset = q.atoms.toFinset := by
      ext b
      rw [List.mem_toFinset, List.mem_toFinset, mem_atoms_without_of_twice ha htwice]
    rw [hsame]
    exact .refl _
  · have herase : (q.without position).atoms.toFinset = q.atoms.toFinset.erase a := by
      ext b
      rw [Finset.mem_erase, List.mem_toFinset, List.mem_toFinset, mem_atoms_without_iff ha htwice,
        and_comm]
    rw [herase]
    refine .shed ⟨?_, hσ, ?_⟩ (.refl _)
    · exact List.mem_toFinset.mpr (mem_atoms.mpr (List.mem_of_getElem? ha))
    · rw [← herase]
      ext b
      rw [List.mem_toFinset, ← honto b]
      simp

theorem shrinksTo_reduce (q : Query) :
    ShrinksTo q.head.distinguished q.atoms.toFinset q.reduce.1.atoms.toFinset := by
  fun_induction reduce q with
  | case1 q => exact .refl _
  | case2 q position hfirst text reduced removals hreduced ih =>
    rw [hreduced] at ih
    exact (shrinksTo_without (List.find?_some hfirst)).trans ih

/-- Without a redundant atom, nothing can be shed. -/
theorem tight_of_not_isRedundant (hno : ∀ position, q.isRedundant position = false) :
    Tight q.head.distinguished q.atoms.toFinset := by
  rintro a σ ⟨hmem, hσ, himage⟩
  obtain ⟨position, ha⟩ :=
    List.mem_iff_getElem?.mp (mem_atoms.mp (List.mem_toFinset.mp hmem))
  have hspares : q.isRedundant position = true := by
    by_cases htwice : a ∈ (q.without position).atoms
    · exact isRedundant_of_twice ha htwice
    · refine Spares.isRedundant ⟨ha, hσ, fun b => ?_⟩
      have hmapped : b ∈ q.atoms.map (Atom.replace σ) ↔ b ∈ q.atoms.toFinset.erase a := by
        rw [← himage]
        simp
      rw [hmapped, mem_atoms_without_iff ha htwice, Finset.mem_erase, List.mem_toFinset, and_comm]
  rw [hno position] at hspares
  cases hspares

/-- A body without comparisons is as long as the list of its atoms. -/
theorem length_atoms (hcs : q.comparisons = []) : q.atoms.length = q.body.length := by
  refine List.filterMap_length_eq_length.mpr fun literal hliteral => ?_
  obtain ⟨a, rfl⟩ := exists_atom_of_mem_body hcs hliteral
  rfl

/-- The atoms of a minimized body are all different, so there are as many as their set has. -/
theorem card_atoms_reduce (hcs : q.comparisons = []) :
    q.reduce.1.atoms.toFinset.card = q.reduce.1.body.length := by
  have hcs' := (foldsOnto_reduce q).comparisons_eq_nil hcs
  have hnodup : q.reduce.1.atoms.Nodup := by
    refine (nodup_body (not_isRedundant_reduce q) hcs').filterMap fun l l' a hl hl' => ?_
    cases l <;> cases l' <;> simp_all [Literal.atom?]
  rw [List.toFinset_card_of_nodup hnodup, length_atoms hcs']

/-- **The order of the atoms does not matter for minimizing.** The minimized bodies have equally
many atoms, and renaming variables that are not distinguished turns the atoms of one into those of
the other. -/
theorem minimize_of_perm (hcs : q.comparisons = []) (hhead : p.head = q.head)
    (hbody : p.body.Perm q.body) :
    ∃ p' q' removals removals', p.minimize = .ok (p', removals) ∧ q.minimize = .ok (q', removals') ∧
      p'.body.length = q'.body.length ∧
      ∃ ρ : Equiv.Perm Variable, (∀ v ∈ q.head.distinguished, ρ v = v) ∧
        ∀ a, a ∈ p'.atoms.map (Atom.rename ρ) ↔ a ∈ q'.atoms := by
  have hcs' : p.comparisons = [] := (hcs ▸ hbody.filterMap _ : p.comparisons.Perm []).eq_nil
  have hatoms : p.atoms.toFinset = q.atoms.toFinset := by
    ext a
    rw [List.mem_toFinset, List.mem_toFinset]
    exact (hbody.filterMap _).mem_iff
  have hp := shrinksTo_reduce p
  have htight := tight_of_not_isRedundant (not_isRedundant_reduce p)
  rw [(foldsOnto_reduce p).head, hhead] at htight
  rw [hhead, hatoms] at hp
  have htight' := tight_of_not_isRedundant (not_isRedundant_reduce q)
  rw [(foldsOnto_reduce q).head] at htight'
  have hrenamed := renamed_of_tight hp htight (shrinksTo_reduce q) htight'
  refine ⟨_, _, _, _, minimize_eq_ok hcs', minimize_eq_ok hcs, ?_, ?_⟩
  · have hcard := hrenamed.card_eq
    rwa [card_atoms_reduce hcs', card_atoms_reduce hcs] at hcard
  · obtain ⟨ρ, hρ, himage⟩ := hrenamed
    refine ⟨ρ, hρ, fun a => ?_⟩
    rw [← List.mem_toFinset (l := q.reduce.1.atoms), ← himage]
    simp

/-- The atoms of `pairsByFirst` the other way round. -/
def pairsBySecond : Query :=
  ⟨⟨"Q", [⟨"x"⟩], none⟩,
    [.atom ⟨"R", [.var ⟨"x"⟩, .var ⟨"z"⟩]⟩, .atom ⟨"R", [.var ⟨"x"⟩, .var ⟨"y"⟩]⟩]⟩

/-- Of two atoms that can be folded onto each other the first is taken away, so the order decides
which variable is left. -/
theorem minimize_of_perm_pairsByFirst :
    (pairsByFirst ⟨"Q", [⟨"x"⟩], none⟩ []).comparisons = [] ∧
      pairsBySecond.head = (pairsByFirst ⟨"Q", [⟨"x"⟩], none⟩ []).head ∧
      pairsBySecond.body.Perm (pairsByFirst ⟨"Q", [⟨"x"⟩], none⟩ []).body ∧
      ∃ p' q' removals removals', pairsBySecond.minimize = .ok (p', removals) ∧
        (pairsByFirst ⟨"Q", [⟨"x"⟩], none⟩ []).minimize = .ok (q', removals') ∧
        p'.atoms = [⟨"R", [.var ⟨"x"⟩, .var ⟨"y"⟩]⟩] ∧
        q'.atoms = [⟨"R", [.var ⟨"x"⟩, .var ⟨"z"⟩]⟩] ∧
        ∃ ρ : Equiv.Perm Variable, ρ ⟨"x"⟩ = ⟨"x"⟩ ∧
          ∀ a, a ∈ p'.atoms.map (Atom.rename ρ) ↔ a ∈ q'.atoms := by
  have hperm : pairsBySecond.body.Perm (pairsByFirst ⟨"Q", [⟨"x"⟩], none⟩ []).body :=
    .swap _ _ _
  obtain ⟨p', q', removals, removals', hp, hq, -, ρ, hρ, hatoms⟩ :=
    minimize_of_perm (p := pairsBySecond) (q := pairsByFirst ⟨"Q", [⟨"x"⟩], none⟩ []) rfl rfl hperm
  have hp' : pairsBySecond.minimize.toOption.map (fun r => r.1.atoms) =
      some [⟨"R", [.var ⟨"x"⟩, .var ⟨"y"⟩]⟩] := by cbv
  have hq' : (pairsByFirst ⟨"Q", [⟨"x"⟩], none⟩ []).minimize.toOption.map (fun r => r.1.atoms) =
      some [⟨"R", [.var ⟨"x"⟩, .var ⟨"z"⟩]⟩] := by cbv
  rw [hp] at hp'
  rw [hq] at hq'
  exact ⟨rfl, rfl, hperm, p', q', removals, removals', hp, hq, Option.some.inj hp',
    Option.some.inj hq', ρ, hρ _ (by decide), hatoms⟩

end Query

end Conjunct
