import Conjunct.Proofs.Search
import Mathlib.Data.Finset.Image
import Mathlib.Data.Set.Finite.Lemmas
import Mathlib.GroupTheory.OrderOfElement
import Mathlib.GroupTheory.Perm.Basic

/-!
# Sets of atoms that shed an atom

A set of atoms *sheds* one of them if moving free variables of this atom turns the set into what is
left without it. This is one step of minimizing, without regard to the order and the number of
atoms.

**Theorem (`exchange`).** Suppose that a set of atoms can shed `a` and can shed `b`. Either each of
the two can still be shed once the other is gone, or a renaming of variables exchanges `a` and `b`
and leaves all other atoms alone.

The proof rests on *private* variables (`Sheds.exists_private`). An atom that can be shed has a
variable that occurs in no other atom: otherwise every term of the set would stay a term, the
replacement would permute the terms, and the set would not lose an atom. The replacement that sheds
`b` keeps the private variable of `a`, so it keeps `a`; and if it turns an atom other than `a` into
`a`, it turns `b` into `a` (`Sheds.replace_eq_of_private`). Then some power of it turns `b` into `a`
and keeps all the others (`Sheds.exists_merges`).
-/

namespace Conjunct

/-! ## Replacements that keep atoms -/

theorem Atom.replace_eq_self_iff {σ : Variable → Term} {a : Atom} :
    a.replace σ = a ↔ ∀ v ∈ a.vars, σ v = .var v := by
  constructor
  · intro h v hv
    have hterms : a.terms.map (Term.replace σ) = a.terms.map id :=
      (congrArg Atom.terms h).trans (List.map_id _).symm
    exact List.map_inj_left.mp hterms (.var v) (Atom.mem_vars.mp hv)
  · intro h
    exact (replace_congr h).trans a.replace_var

theorem Atom.Confines.eq_var {fixed : List Variable} {σ : Variable → Term} {a : Atom} {v : Variable}
    (h : a.Confines fixed σ) (hv : v ∉ a.vars) : σ v = .var v := by
  by_contra hmoves
  exact hv (h v hmoves).1

/-- Apply a replacement some number of times. -/
def iterated (σ : Variable → Term) (n : Nat) (v : Variable) : Term :=
  (Term.replace σ)^[n] (.var v)

theorem Atom.replace_iterated (σ : Variable → Term) (n : Nat) (a : Atom) :
    a.replace (iterated σ n) = (Atom.replace σ)^[n] a := by
  induction n with
  | zero => exact a.replace_var
  | succ n ih =>
    have hstep : iterated σ (n + 1) = fun v => (iterated σ n v).replace σ :=
      funext fun v => Function.iterate_succ_apply' _ _ _
    rw [hstep, ← replace_replace, ih, Function.iterate_succ_apply']

theorem Atom.Confines.iterated {fixed : List Variable} {σ : Variable → Term} {a : Atom}
    (h : a.Confines fixed σ) (n : Nat) : a.Confines fixed (iterated σ n) := by
  intro v hmoves
  refine h v fun hkept => hmoves ?_
  exact Function.iterate_fixed (f := Term.replace σ) (x := .var v) hkept n

/-! ## Shedding -/

/-- A replacement of free variables of an atom turns a set of atoms into the set without it. -/
structure Sheds (fixed : List Variable) (A : Finset Atom) (a : Atom) (σ : Variable → Term) :
    Prop where
  mem : a ∈ A
  confines : a.Confines fixed σ
  image : A.image (Atom.replace σ) = A.erase a

/-- A replacement of free variables of an atom turns it into another one, and keeps all other
atoms. -/
structure Merges (fixed : List Variable) (A : Finset Atom) (a b : Atom) (σ : Variable → Term) :
    Prop where
  confines : a.Confines fixed σ
  merged : a.replace σ = b
  kept : ∀ c ∈ A, c ≠ a → c.replace σ = c

/-- A variable that occurs in one atom of a set only. -/
structure Private (A : Finset Atom) (a : Atom) (v : Variable) : Prop where
  occurs : v ∈ a.vars
  only : ∀ b ∈ A, v ∈ b.vars → b = a

variable {fixed : List Variable} {A : Finset Atom} {a b c : Atom} {σ τ : Variable → Term}

theorem Sheds.replace_mem (h : Sheds fixed A a σ) (hc : c ∈ A) : c.replace σ ∈ A.erase a :=
  h.image ▸ Finset.mem_image_of_mem _ hc

/-! ## Private variables -/

/-- The terms of a set of atoms. -/
def termsOf (A : Finset Atom) : Finset Term :=
  A.biUnion fun a => a.terms.toFinset

theorem mem_termsOf {t : Term} : t ∈ termsOf A ↔ ∃ a ∈ A, t ∈ a.terms := by
  simp [termsOf]

/-- A replacement that tells all terms apart tells all atoms apart. -/
theorem injOn_replace (h : Set.InjOn (Term.replace σ) (termsOf A)) :
    Set.InjOn (Atom.replace σ) A := by
  intro b hb c hc heq
  have hrelation : (b.replace σ).relation = (c.replace σ).relation := congrArg Atom.relation heq
  have hmap : b.terms.map (Term.replace σ) = c.terms.map (Term.replace σ) :=
    congrArg Atom.terms heq
  have hlength : b.terms.length = c.terms.length := by
    simpa using congrArg List.length hmap
  have hterms : b.terms = c.terms := by
    refine List.ext_getElem hlength fun i hi hi' => ?_
    refine h (mem_termsOf.mpr ⟨b, hb, List.getElem_mem hi⟩)
      (mem_termsOf.mpr ⟨c, hc, List.getElem_mem hi'⟩) ?_
    have hi'' : (b.terms.map (Term.replace σ))[i]? = (c.terms.map (Term.replace σ))[i]? := by
      rw [hmap]
    simpa [hi, hi'] using hi''
  cases b
  cases c
  exact congr (congrArg Atom.mk hrelation) hterms

/-- If each variable of a shed atom occurred in another atom too, every term would be the image of a
term. -/
theorem Sheds.termsOf_subset (h : Sheds fixed A a σ)
    (hshared : ∀ v ∈ a.vars, ∃ b ∈ A, b ≠ a ∧ v ∈ b.vars) :
    termsOf A ⊆ (termsOf A).image (Term.replace σ) := by
  have hothers : ∀ b ∈ A, b ≠ a → ∀ t ∈ b.terms, t ∈ (termsOf A).image (Term.replace σ) := by
    intro b hb hne t ht
    have hmem : b ∈ A.image (Atom.replace σ) := h.image ▸ Finset.mem_erase.mpr ⟨hne, hb⟩
    obtain ⟨c, hc, rfl⟩ := Finset.mem_image.mp hmem
    obtain ⟨u, hu, rfl⟩ := List.mem_map.mp ht
    exact Finset.mem_image_of_mem _ (mem_termsOf.mpr ⟨c, hc, hu⟩)
  intro t ht
  obtain ⟨b, hb, htb⟩ := mem_termsOf.mp ht
  by_cases hba : b = a
  · cases t with
    | const c => exact Finset.mem_image.mpr ⟨.const c, ht, rfl⟩
    | var v =>
      obtain ⟨c, hc, hne, hvc⟩ := hshared v (Atom.mem_vars.mpr (hba ▸ htb))
      exact hothers c hc hne _ (Atom.mem_vars.mp hvc)
  · exact hothers b hb hba t htb

/-- **A shed atom has a private variable.** -/
theorem Sheds.exists_private (h : Sheds fixed A a σ) : ∃ v, Private A a v := by
  by_contra hnone
  have hshared : ∀ v ∈ a.vars, ∃ b ∈ A, b ≠ a ∧ v ∈ b.vars := by
    intro v hv
    by_contra honly
    push Not at honly
    exact hnone ⟨v, hv, fun b hb hvb => by_contra fun hne => honly b hb hne hvb⟩
  have hcard : ((termsOf A).image (Term.replace σ)).card = (termsOf A).card :=
    Nat.le_antisymm Finset.card_image_le (Finset.card_le_card (h.termsOf_subset hshared))
  have hinj := injOn_replace (Finset.card_image_iff.mp hcard)
  have hsame : (A.erase a).card = A.card := by
    rw [← h.image, Finset.card_image_of_injOn hinj]
  have hless := Finset.card_erase_lt_of_mem h.mem
  omega

/-- Shedding an atom keeps an atom with a private variable. -/
theorem Sheds.replace_eq_self {p : Variable} (hp : Private A a p) (ha : a ∈ A) (hab : a ≠ b)
    (h : Sheds fixed A b τ) : a.replace τ = a := by
  have hfree : τ p = .var p := h.confines.eq_var fun hpb => hab (hp.only b h.mem hpb).symm
  exact hp.only _ (Finset.mem_of_mem_erase (h.replace_mem ha))
    (Atom.mem_vars_replace hfree hp.occurs)

/-- If an atom is turned into one with a private variable, the shed atom is too: only there the
private variable can come from. -/
theorem Sheds.replace_eq_of_private {p : Variable} (hp : Private A a p)
    (h : Sheds fixed A b τ) (hc : c ∈ A) (hca : c ≠ a) (heq : c.replace τ = a) :
    b.replace τ = a := by
  have hmem : Term.var p ∈ c.terms.map (Term.replace τ) := by
    have hoccurs := Atom.mem_vars.mp hp.occurs
    rwa [← heq] at hoccurs
  obtain ⟨t, ht, htp⟩ := List.mem_map.mp hmem
  cases t with
  | const d => cases htp
  | var u =>
    have hup : τ u = .var p := htp
    have hmoved : τ u ≠ .var u := by
      rintro hkept
      cases hkept.symm.trans hup
      exact hca (hp.only c hc (Atom.mem_vars.mpr ht))
    have hub := (h.confines u hmoved).1
    refine hp.only _ (Finset.mem_of_mem_erase (h.replace_mem h.mem)) (Atom.mem_vars.mpr ?_)
    exact List.mem_map.mpr ⟨.var u, Atom.mem_vars.mp hub, hup⟩

/-! ## Merging -/

/-- A function that maps a finite set onto itself keeps each of its members after some number of
rounds. -/
theorem exists_iterate_eq_self {α : Type} [DecidableEq α] {s : Finset α} {f : α → α}
    (h : s.image f = s) : ∃ n, 0 < n ∧ ∀ x ∈ s, f^[n] x = x := by
  have hmaps : Set.MapsTo f s s := fun x hx => by
    have hmem : f x ∈ s.image f := Finset.mem_image_of_mem f hx
    rwa [h] at hmem
  have hinj : Function.Injective (hmaps.restrict f s s) :=
    hmaps.restrict_inj.mpr (Finset.card_image_iff.mp (congrArg Finset.card h))
  let e : Equiv.Perm s := Equiv.ofBijective _ (Finite.injective_iff_bijective.mp hinj)
  obtain ⟨n, hn, hpow⟩ := isOfFinOrder_iff_pow_eq_one.mp (isOfFinOrder_of_finite e)
  refine ⟨n, hn, fun x hx => ?_⟩
  have hround : (hmaps.restrict f s s)^[n] ⟨x, hx⟩ = ⟨x, hx⟩ := by
    have hiterate := Equiv.Perm.iterate_eq_pow e n
    rw [hpow] at hiterate
    exact congrFun hiterate ⟨x, hx⟩
  rw [hmaps.iterate_restrict] at hround
  exact congrArg Subtype.val hround

/-- If the shed atom is turned into one that is kept, then some power merges it with that one. -/
theorem Sheds.exists_merges (h : Sheds fixed A b τ) (ha : a ∈ A) (hab : a ≠ b)
    (hself : a.replace τ = a) (hmerged : b.replace τ = a) :
    ∃ τ', Merges fixed A b a τ' := by
  have honto : (A.erase b).image (Atom.replace τ) = A.erase b := by
    refine Finset.Subset.antisymm ?_ ?_
    · exact (Finset.image_subset_image (Finset.erase_subset b A)).trans h.image.subset
    · intro d hd
      rw [← h.image] at hd
      obtain ⟨c, hc, rfl⟩ := Finset.mem_image.mp hd
      by_cases hcb : c = b
      · rw [hcb, hmerged]
        exact Finset.mem_image.mpr ⟨a, Finset.mem_erase.mpr ⟨hab, ha⟩, hself⟩
      · exact Finset.mem_image_of_mem _ (Finset.mem_erase.mpr ⟨hcb, hc⟩)
  obtain ⟨n, hn, hround⟩ := exists_iterate_eq_self honto
  refine ⟨iterated τ n, h.confines.iterated n, ?_, fun c hc hcb => ?_⟩
  · obtain ⟨m, rfl⟩ := Nat.exists_eq_add_one_of_ne_zero (Nat.ne_of_gt hn)
    rw [Atom.replace_iterated, Function.iterate_succ_apply, hmerged]
    exact Function.iterate_fixed hself m
  · rw [Atom.replace_iterated]
    exact hround c (Finset.mem_erase.mpr ⟨hcb, hc⟩)

/-! ## Shedding what is left -/

/-- An atom that is not turned into another one can be shed without it by the same replacement. -/
theorem Sheds.erase {p : Variable} (hp : Private A a p) (ha : a ∈ A) (hab : a ≠ b)
    (h : Sheds fixed A b τ) (hapart : b.replace τ ≠ a) : Sheds fixed (A.erase a) b τ := by
  have hself := h.replace_eq_self hp ha hab
  refine ⟨Finset.mem_erase.mpr ⟨hab.symm, h.mem⟩, h.confines, ?_⟩
  ext d
  rw [Finset.erase_right_comm, ← h.image, Finset.mem_erase, Finset.mem_image, Finset.mem_image]
  constructor
  · rintro ⟨c, hc, rfl⟩
    obtain ⟨hca, hc⟩ := Finset.mem_erase.mp hc
    exact ⟨fun heq => hapart (h.replace_eq_of_private hp hc hca heq), c, hc, rfl⟩
  · rintro ⟨hda, c, hc, rfl⟩
    refine ⟨c, Finset.mem_erase.mpr ⟨?_, hc⟩, rfl⟩
    rintro rfl
    exact hda hself

/-- An atom that is merged with a shed one can be shed without it: by going on to where the shed one
is turned into. -/
theorem Merges.exists_sheds_erase (hb : b ∈ A) (hab : a ≠ b) (h : Merges fixed A b a τ)
    (ha : Sheds fixed A a σ) (hself : b.replace σ = b) (hapart : a.replace σ ≠ b) :
    ∃ τ', Sheds fixed (A.erase a) b τ' := by
  let τ' : Variable → Term := fun v => if τ v = .var v then .var v else (τ v).replace σ
  have hkept : ∀ c ∈ A, c ≠ b → c.replace τ' = c := by
    intro c hc hcb
    refine Atom.replace_eq_self_iff.mpr fun v hv => ?_
    exact if_pos (Atom.replace_eq_self_iff.mp (h.kept c hc hcb) v hv)
  have hmoved : b.replace τ' = a.replace σ := by
    rw [← h.merged, Atom.replace_replace]
    refine Atom.replace_congr fun v hv => ?_
    show (if τ v = .var v then .var v else (τ v).replace σ) = (τ v).replace σ
    split
    · next hvar =>
      rw [hvar]
      exact (Atom.replace_eq_self_iff.mp hself v hv).symm
    · rfl
  have hconfines : b.Confines fixed τ' := fun v hv => h.confines v fun hvar => hv (if_pos hvar)
  refine ⟨τ', Finset.mem_erase.mpr ⟨hab.symm, hb⟩, hconfines, ?_⟩
  ext d
  rw [Finset.mem_image]
  constructor
  · rintro ⟨c, hc, rfl⟩
    obtain ⟨hca, hcA⟩ := Finset.mem_erase.mp hc
    by_cases hcb : c = b
    · rw [hcb, hmoved]
      exact Finset.mem_erase.mpr ⟨hapart, ha.replace_mem ha.mem⟩
    · rw [hkept c hcA hcb]
      exact Finset.mem_erase.mpr ⟨hcb, hc⟩
  · intro hd
    obtain ⟨hdb, hd⟩ := Finset.mem_erase.mp hd
    exact ⟨d, hd, hkept d (Finset.mem_of_mem_erase hd) hdb⟩

/-! ## Renaming -/

/-- Rename the variables of an atom. -/
def Atom.rename (ρ : Variable → Variable) (a : Atom) : Atom :=
  a.replace fun v => .var (ρ v)

/-- The variable that takes the place of one under two replacements that move different ones. -/
def exchanged (σ τ : Variable → Term) (v : Variable) : Variable :=
  ((if τ v = .var v then σ v else τ v).var?).getD v

theorem exchanged_of_left {v w : Variable} (hτ : τ v = .var v) (hσ : σ v = .var w) :
    exchanged σ τ v = w := by
  rw [exchanged, if_pos hτ, hσ]
  rfl

theorem exchanged_of_right {v w : Variable} (hτ : τ v = .var w) (hne : w ≠ v) :
    exchanged σ τ v = w := by
  have hmoved : ¬ τ v = .var v := by
    rw [hτ]
    exact fun heq => hne (Term.var.inj heq)
  rw [exchanged, if_neg hmoved, hτ]
  rfl

/-- Where two replacements undo each other, what one moves goes to a variable that the other
moves. -/
theorem exists_var_of_replace {v : Variable} (hback : (τ v).replace σ = .var v) :
    ∃ w, τ v = .var w ∧ σ w = .var v := by
  cases hτ : τ v with
  | const c =>
    rw [hτ] at hback
    cases hback
  | var w =>
    rw [hτ] at hback
    exact ⟨w, rfl, hback⟩

/-- The variables of atoms that are merged with each other come back. -/
theorem Merges.replace_replace (hσ : Merges fixed A a b σ) (hτ : Merges fixed A b a τ)
    {v : Variable} (hv : v ∈ b.vars) : (τ v).replace σ = .var v := by
  have hround : b.replace (fun v => (τ v).replace σ) = b := by
    rw [← Atom.replace_replace, hτ.merged, hσ.merged]
  exact Atom.replace_eq_self_iff.mp hround v hv

theorem Merges.exchanged_exchanged (ha : a ∈ A) (hb : b ∈ A) (hab : a ≠ b)
    (hσ : Merges fixed A a b σ) (hτ : Merges fixed A b a τ) (v : Variable) :
    exchanged σ τ (exchanged σ τ v) = v := by
  have hkeepsA := Atom.replace_eq_self_iff.mp (hτ.kept a ha hab)
  have hkeepsB := Atom.replace_eq_self_iff.mp (hσ.kept b hb hab.symm)
  by_cases hmovesT : τ v = .var v
  · by_cases hmovesS : σ v = .var v
    · rw [exchanged_of_left hmovesT hmovesS, exchanged_of_left hmovesT hmovesS]
    · have hva := (hσ.confines v hmovesS).1
      obtain ⟨w, hw, hback⟩ := exists_var_of_replace (hτ.replace_replace hσ hva)
      have hvw : v ≠ w := by
        rintro rfl
        exact hmovesS hw
      rw [exchanged_of_left hmovesT hw, exchanged_of_right hback hvw]
  · have hvb := (hτ.confines v hmovesT).1
    obtain ⟨w, hw, hback⟩ := exists_var_of_replace (hσ.replace_replace hτ hvb)
    have hwv : w ≠ v := by
      rintro rfl
      exact hmovesT hw
    have hwa : w ∈ a.vars := by
      rw [← hτ.merged]
      exact Atom.mem_vars.mpr (List.mem_map.mpr ⟨.var v, Atom.mem_vars.mp hvb, hw⟩)
    rw [exchanged_of_right hw hwv, exchanged_of_left (hkeepsA w hwa) hback]

/-- **Atoms that are merged with each other are exchanged by a renaming.** -/
theorem Merges.exists_renaming (ha : a ∈ A) (hb : b ∈ A) (hab : a ≠ b)
    (hσ : Merges fixed A a b σ) (hτ : Merges fixed A b a τ) :
    ∃ ρ : Equiv.Perm Variable, (∀ v ∈ fixed, ρ v = v) ∧
      (A.erase b).image (Atom.rename ρ) = A.erase a := by
  have hinvolutive : Function.Involutive (exchanged σ τ) :=
    hσ.exchanged_exchanged ha hb hab hτ
  have hfixed : ∀ v ∈ fixed, exchanged σ τ v = v := by
    intro v hv
    refine exchanged_of_left ?_ ?_
    · by_contra hmoves
      exact (hτ.confines v hmoves).2 hv
    · by_contra hmoves
      exact (hσ.confines v hmoves).2 hv
  have hkept : ∀ c ∈ A, c ≠ a → c ≠ b → c.rename (exchanged σ τ) = c := by
    intro c hc hca hcb
    refine Atom.replace_eq_self_iff.mpr fun v hv => congrArg Term.var ?_
    exact exchanged_of_left (Atom.replace_eq_self_iff.mp (hτ.kept c hc hcb) v hv)
      (Atom.replace_eq_self_iff.mp (hσ.kept c hc hca) v hv)
  have hmerged : a.rename (exchanged σ τ) = b := by
    rw [← hσ.merged]
    refine Atom.replace_congr fun v hv => ?_
    obtain ⟨w, hw, _⟩ := exists_var_of_replace (hτ.replace_replace hσ hv)
    rw [hw, exchanged_of_left (Atom.replace_eq_self_iff.mp (hτ.kept a ha hab) v hv) hw]
  refine ⟨hinvolutive.toPerm, hfixed, ?_⟩
  ext d
  rw [Finset.mem_image]
  constructor
  · rintro ⟨c, hc, rfl⟩
    obtain ⟨hcb, hcA⟩ := Finset.mem_erase.mp hc
    by_cases hca : c = a
    · rw [hca]
      exact hmerged.symm ▸ Finset.mem_erase.mpr ⟨hab.symm, hb⟩
    · exact (hkept c hcA hca hcb).symm ▸ Finset.mem_erase.mpr ⟨hca, hcA⟩
  · intro hd
    obtain ⟨hda, hdA⟩ := Finset.mem_erase.mp hd
    by_cases hdb : d = b
    · exact ⟨a, Finset.mem_erase.mpr ⟨hab, ha⟩, hdb ▸ hmerged⟩
    · exact ⟨d, Finset.mem_erase.mpr ⟨hdb, hdA⟩, hkept d hdA hda hdb⟩

/-! ## Two atoms that can be shed -/

/-- **Two ways to shed an atom can be completed alike.** Either each atom can be shed after the
other, or what is left is the same up to a renaming. -/
theorem exchange (hab : a ≠ b) (ha : Sheds fixed A a σ) (hb : Sheds fixed A b τ) :
    ((∃ τ', Sheds fixed (A.erase a) b τ') ∧ ∃ σ', Sheds fixed (A.erase b) a σ') ∨
      ∃ ρ : Equiv.Perm Variable, (∀ v ∈ fixed, ρ v = v) ∧
        (A.erase b).image (Atom.rename ρ) = A.erase a := by
  obtain ⟨p, hp⟩ := ha.exists_private
  obtain ⟨r, hr⟩ := hb.exists_private
  have hselfA := hb.replace_eq_self hp ha.mem hab
  have hselfB := ha.replace_eq_self hr hb.mem hab.symm
  by_cases hba : b.replace τ = a
  · obtain ⟨τ', hτ'⟩ := hb.exists_merges ha.mem hab hselfA hba
    by_cases hmerged : a.replace σ = b
    · obtain ⟨σ', hσ'⟩ := ha.exists_merges hb.mem hab.symm hselfB hmerged
      exact .inr (hσ'.exists_renaming ha.mem hb.mem hab hτ')
    · exact .inl ⟨hτ'.exists_sheds_erase hb.mem hab ha hselfB hmerged, σ,
        ha.erase hr hb.mem hab.symm hmerged⟩
  · have hleft := hb.erase hp ha.mem hab hba
    by_cases hmerged : a.replace σ = b
    · obtain ⟨σ', hσ'⟩ := ha.exists_merges hb.mem hab.symm hselfB hmerged
      exact .inl ⟨⟨τ, hleft⟩, hσ'.exists_sheds_erase ha.mem hab.symm hb hselfA hba⟩
    · exact .inl ⟨⟨τ, hleft⟩, σ, ha.erase hr hb.mem hab.symm hmerged⟩

end Conjunct
