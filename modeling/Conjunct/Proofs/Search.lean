import Conjunct.Minimize
import Conjunct.Proofs.Valuation

/-!
# The search for redundant atoms

Whether an atom is redundant is found out by trying substitutions. The search tries those that move
each free variable of the atom to a term in another atom of the same relation, or leave it alone.

**Theorem (`Query.isRedundant_iff`).** An atom is found redundant exactly if *any* replacement of
its free variables, by whatever terms, turns the atoms of the query, as a set, into the others.

That the search invents no replacement is plain: what it accepts is one. That it misses none is due
to the atom itself. It has to be turned into one of the others, and this fixes the terms for its
variables up to the choice of that atom (`Query.mem_images`).
-/

namespace Conjunct

/-! ## Replacing variables -/

/-- Replace every variable by a term. -/
def Term.replace (σ : Variable → Term) : Term → Term
  | .var v => σ v
  | .const c => .const c

/-- Replace every variable of an atom by a term. -/
def Atom.replace (σ : Variable → Term) (a : Atom) : Atom :=
  ⟨a.relation, a.terms.map (Term.replace σ)⟩

theorem Atom.replace_var (a : Atom) : a.replace .var = a := by
  have hterm : Term.replace .var = id := funext fun t => by cases t <;> rfl
  simp [replace, hterm]

theorem Atom.replace_replace (σ τ : Variable → Term) (a : Atom) :
    (a.replace σ).replace τ = a.replace fun v => (σ v).replace τ := by
  have hterm : ∀ t : Term, (t.replace σ).replace τ = t.replace fun v => (σ v).replace τ :=
    fun t => by cases t <;> rfl
  simp [replace, hterm]

theorem Atom.replace_congr {σ τ : Variable → Term} {a : Atom} (h : ∀ v ∈ a.vars, σ v = τ v) :
    a.replace σ = a.replace τ := by
  refine congrArg (Atom.mk a.relation) (List.map_congr_left fun t ht => ?_)
  cases t with
  | var v => exact h v (mem_vars.mpr ht)
  | const c => rfl

/-- A variable that is left alone still occurs. -/
theorem Atom.mem_vars_replace {σ : Variable → Term} {a : Atom} {v : Variable} (hσ : σ v = .var v)
    (hv : v ∈ a.vars) : v ∈ (a.replace σ).vars :=
  mem_vars.mpr (List.mem_map.mpr ⟨.var v, mem_vars.mp hv, hσ⟩)

theorem Atom.substitute_eq_replace (m : Substitution) (a : Atom) :
    a.substitute m = a.replace fun v => Term.substitute m (.var v) := by
  refine congrArg (Atom.mk a.relation) (List.map_congr_left fun t _ => ?_)
  cases t <;> rfl

/-- A replacement moves variables of one atom only, and none of the fixed ones. -/
def Atom.Confines (a : Atom) (fixed : List Variable) (σ : Variable → Term) : Prop :=
  ∀ v, σ v ≠ .var v → v ∈ a.vars ∧ v ∉ fixed

namespace Query

variable {q : Query} {σ : Variable → Term} {position : Nat} {a b : Atom}

/-! ## Substitutions as replacements -/

theorem substitute_of_not_mem {m : Substitution} {v : Variable} (h : v ∉ m.map Prod.fst) :
    Term.substitute m (.var v) = .var v := by
  have hlookup : m.lookup v = none := by
    rw [List.lookup_eq_none_iff]
    intro p hp
    rw [bne_iff_ne]
    rintro rfl
    exact h (List.mem_map_of_mem hp)
  rw [Term.substitute, hlookup]
  rfl

theorem substitute_cons_self (m : Substitution) (v : Variable) (t : Term) :
    Term.substitute ((v, t) :: m) (.var v) = t := by
  simp [Term.substitute]

theorem substitute_cons_of_ne {m : Substitution} {v w : Variable} (t : Term) (h : w ≠ v) :
    Term.substitute ((v, t) :: m) (.var w) = Term.substitute m (.var w) := by
  have hbeq : (w == v) = false := beq_eq_false_iff_ne.mpr h
  simp [Term.substitute, List.lookup_cons, hbeq]

/-! ## The substitutions that are tried -/

/-- The search for a substitution binds only the listed variables. -/
theorem exists_of_someSubstitution {accepts : Substitution → Bool}
    {choices : List (Variable × List Term)} {m : Substitution}
    (h : someSubstitution accepts choices m = true) :
    ∃ extra, accepts (extra ++ m) = true ∧ ∀ p ∈ extra, p.1 ∈ choices.map Prod.fst := by
  induction choices generalizing m with
  | nil => exact ⟨[], h, by simp⟩
  | cons choice rest ih =>
    obtain ⟨v, terms⟩ := choice
    rw [someSubstitution, Bool.or_eq_true, List.any_eq_true] at h
    rcases h with h | ⟨t, _, h⟩
    · obtain ⟨extra, haccept, hextra⟩ := ih h
      exact ⟨extra, haccept, fun p hp => List.mem_cons_of_mem v (hextra p hp)⟩
    · obtain ⟨extra, haccept, hextra⟩ := ih h
      refine ⟨extra ++ [(v, t)], by simpa using haccept, fun p hp => ?_⟩
      rcases List.mem_append.mp hp with hp | hp
      · exact List.mem_cons_of_mem v (hextra p hp)
      · simp [List.mem_singleton.mp hp]

/-- The search finds a replacement that moves listed variables to their images, if its outcome is
accepted. -/
theorem someSubstitution_of_images {accepts : Substitution → Bool} {vs : List Variable}
    {terms : Variable → List Term} {m : Substitution} (hnodup : vs.Nodup)
    (hunbound : ∀ v ∈ vs, Term.substitute m (.var v) = .var v)
    (himages : ∀ v ∈ vs, σ v = .var v ∨ σ v ∈ terms v)
    (haccepts : ∀ m', (∀ v, Term.substitute m' (.var v) =
      if v ∈ vs then σ v else Term.substitute m (.var v)) → accepts m' = true) :
    someSubstitution accepts (vs.map fun v => (v, terms v)) m = true := by
  induction vs generalizing m with
  | nil => exact haccepts m fun v => by simp
  | cons v vs ih =>
    obtain ⟨hv, hnodup⟩ := List.nodup_cons.mp hnodup
    have hrest := fun w hw => himages w (List.mem_cons_of_mem v hw)
    rw [List.map_cons, someSubstitution, Bool.or_eq_true, List.any_eq_true]
    rcases himages v List.mem_cons_self with hkept | himage
    · -- The variable keeps its place, and the search goes on with the same substitution.
      refine .inl (ih hnodup (fun w hw => hunbound w (List.mem_cons_of_mem v hw)) hrest ?_)
      intro m' hm'
      refine haccepts m' fun w => ?_
      rw [hm' w]
      by_cases hw : w = v
      · rw [hw, if_neg hv, if_pos List.mem_cons_self, hkept]
        exact hunbound v List.mem_cons_self
      · simp [hw]
    · refine .inr ⟨σ v, himage, ih hnodup (fun w hw => ?_) hrest fun m' hm' => ?_⟩
      · have hne : w ≠ v := fun heq => hv (heq ▸ hw)
        rw [substitute_cons_of_ne _ hne]
        exact hunbound w (List.mem_cons_of_mem v hw)
      · refine haccepts m' fun w => ?_
        rw [hm' w]
        by_cases hw : w = v
        · rw [hw, if_neg hv, if_pos List.mem_cons_self, substitute_cons_self]
        · rw [substitute_cons_of_ne _ hw]
          simp [hw]

/-- A variable of an atom that is turned into another atom goes to one of its images. -/
theorem mem_images {others : List Atom} {v : Variable} (hb : b.replace σ ∈ others)
    (hv : v ∈ b.vars) : σ v = .var v ∨ σ v ∈ images b others v := by
  by_cases hkept : σ v = .var v
  · exact .inl hkept
  · refine .inr (List.mem_eraseDups.mpr (List.mem_filter.mpr ⟨?_, decide_eq_true hkept⟩))
    refine List.mem_flatMap.mpr ⟨_, List.mem_filter.mpr ⟨hb, decide_eq_true rfl⟩, ?_⟩
    exact List.mem_map.mpr ⟨.var v, Atom.mem_vars.mp hv, rfl⟩

/-! ## Taking an atom away -/

theorem mem_atoms {b : Atom} : b ∈ q.atoms ↔ .atom b ∈ q.body := by
  rw [atoms, List.mem_filterMap]
  constructor
  · rintro ⟨literal, hmem, hatom⟩
    cases literal with
    | atom a =>
      cases hatom
      exact hmem
    | comparison c => cases hatom
  · exact fun h => ⟨_, h, rfl⟩

theorem mem_comparisons {c : Comparison} : c ∈ q.comparisons ↔ .comparison c ∈ q.body := by
  rw [comparisons, List.mem_filterMap]
  constructor
  · rintro ⟨literal, hmem, hcomparison⟩
    cases literal with
    | atom a => cases hcomparison
    | comparison d =>
      cases hcomparison
      exact hmem
  · exact fun h => ⟨_, h, rfl⟩

/-- An atom of the body is the one that is taken away, or stays. -/
theorem mem_atoms_without {position : Nat} {a b : Atom}
    (ha : q.body[position]? = some (.atom a)) (hb : b ∈ q.atoms) :
    b = a ∨ b ∈ (q.without position).atoms := by
  obtain ⟨i, hi⟩ := List.mem_iff_getElem?.mp (mem_atoms.mp hb)
  by_cases heq : i = position
  · rw [heq, ha] at hi
    cases hi
    exact .inl rfl
  · exact .inr (mem_atoms.mpr (List.mem_eraseIdx_iff_getElem?.mpr ⟨i, heq, hi⟩))

theorem atoms_without_sublist (q : Query) (position : Nat) :
    (q.without position).atoms.Sublist q.atoms :=
  (List.eraseIdx_sublist q.body position).filterMap _

/-- What is left without an atom that occurs once is all other atoms. -/
theorem mem_atoms_without_iff {position : Nat} (hb : q.body[position]? = some (.atom b))
    (honce : b ∉ (q.without position).atoms) {c : Atom} :
    c ∈ (q.without position).atoms ↔ c ∈ q.atoms ∧ c ≠ b := by
  constructor
  · intro hc
    exact ⟨(q.atoms_without_sublist position).subset hc, fun heq => honce (heq ▸ hc)⟩
  · rintro ⟨hc, hne⟩
    exact (mem_atoms_without hb hc).resolve_left hne

/-- What is left without an atom that occurs again is all atoms. -/
theorem mem_atoms_without_of_twice (ha : q.body[position]? = some (.atom a))
    (htwice : a ∈ (q.without position).atoms) : b ∈ (q.without position).atoms ↔ b ∈ q.atoms := by
  constructor
  · exact fun hb => (q.atoms_without_sublist position).subset hb
  · intro hb
    rcases mem_atoms_without ha hb with rfl | hb
    · exact htwice
    · exact hb

theorem isRedundant_of_twice (ha : q.body[position]? = some (.atom a))
    (htwice : a ∈ (q.without position).atoms) : q.isRedundant position = true := by
  rw [isRedundant, ha]
  simp [htwice]

/-- All literals of a body without comparisons are atoms. -/
theorem exists_atom_of_mem_body (hcs : q.comparisons = []) {literal : Literal}
    (h : literal ∈ q.body) : ∃ a, literal = .atom a := by
  cases literal with
  | atom a => exact ⟨a, rfl⟩
  | comparison c =>
    have hc : c ∈ q.comparisons := List.mem_filterMap.mpr ⟨_, h, rfl⟩
    simp [hcs] at hc

/-! ## Exactness -/

/-- A replacement of free variables of the atom at a position that turns the atoms of a query, as a
set, into the others. -/
structure Spares (q : Query) (position : Nat) (a : Atom) (σ : Variable → Term) : Prop where
  atom : q.body[position]? = some (.atom a)
  confines : a.Confines q.head.distinguished σ
  onto : ∀ b, b ∈ q.atoms.map (Atom.replace σ) ↔ b ∈ (q.without position).atoms

/-- The search invents no replacement. -/
theorem exists_spares (h : q.isRedundant position = true) : ∃ a σ, q.Spares position a σ := by
  unfold isRedundant at h
  split at h
  · next a ha =>
    rw [Bool.or_eq_true] at h
    rcases h with h | h
    · -- Of an atom that occurs twice, nothing has to be moved.
      have hduplicate : a ∈ (q.without position).atoms := List.contains_iff_mem.mp h
      refine ⟨a, .var, ha, fun v hv => absurd rfl hv, fun b => ?_⟩
      have hid : q.atoms.map (Atom.replace .var) = q.atoms :=
        (List.map_congr_left fun c _ => c.replace_var).trans (List.map_id _)
      rw [hid, mem_atoms_without_of_twice ha hduplicate]
    · obtain ⟨m, hm, hfree⟩ := exists_of_someSubstitution h
      rw [List.append_nil, Atom.sameSet_iff] at hm
      refine ⟨a, fun v => Term.substitute m (.var v), ha, fun v hmoved => ?_, fun b => ?_⟩
      · have hbound : v ∈ m.map Prod.fst := by
          by_contra hunbound
          exact hmoved (substitute_of_not_mem hunbound)
        obtain ⟨p, hp, rfl⟩ := List.mem_map.mp hbound
        have hlisted := hfree p hp
        rw [List.map_map] at hlisted
        obtain ⟨w, hw, heq⟩ := List.mem_map.mp hlisted
        cases (heq : w = p.1)
        obtain ⟨hvars, hfixed⟩ := List.mem_filter.mp hw
        exact ⟨hvars, of_decide_eq_true hfixed⟩
      · rw [← hm b, List.map_congr_left fun c _ => Atom.substitute_eq_replace m c]
  · cases h

/-- The search misses no replacement. -/
theorem Spares.isRedundant (h : q.Spares position a σ) : q.isRedundant position = true := by
  obtain ⟨ha, hσ, honto⟩ := h
  unfold Query.isRedundant
  rw [ha]
  dsimp only
  rw [Bool.or_eq_true]
  have hmem : a ∈ q.atoms := mem_atoms.mpr (List.mem_of_getElem? ha)
  have hmoved : a.replace σ ∈ (q.without position).atoms :=
    (honto _).mp (List.mem_map_of_mem hmem)
  have hnodup : (a.vars.filter (· ∉ q.head.distinguished)).Nodup :=
    (nodup_eraseDups _).filter _
  refine .inr (someSubstitution_of_images (σ := σ) hnodup (fun v _ => rfl)
    (fun v hv => mem_images hmoved (List.mem_of_mem_filter hv)) fun m hm => ?_)
  -- The substitution that is found is the replacement, since this moves free variables only.
  have hsame : (fun v => Term.substitute m (.var v)) = σ := by
    funext v
    rw [hm v]
    split
    · rfl
    · next hnot =>
      by_contra hmoves
      obtain ⟨hvars, hfree⟩ := hσ v fun hkept => hmoves hkept.symm
      exact hnot (List.mem_filter.mpr ⟨hvars, decide_eq_true hfree⟩)
  have hmap : q.atoms.map (Atom.substitute m) = q.atoms.map (Atom.replace σ) :=
    List.map_congr_left fun c _ => by rw [Atom.substitute_eq_replace, hsame]
  rw [hmap, Atom.sameSet_iff]
  exact honto

/-- **The search is exact.** The literal at a position is found redundant if and only if it is an
atom and some replacement of its variables, the distinguished ones apart, turns the atoms of the
query into those that are left without it. -/
theorem isRedundant_iff (q : Query) (position : Nat) :
    q.isRedundant position = true ↔
      ∃ a, q.body[position]? = some (.atom a) ∧
        ∃ σ : Variable → Term, (∀ v, σ v ≠ .var v → v ∈ a.vars ∧ v ∉ q.head.distinguished) ∧
          ∀ b, b ∈ q.atoms.map (Atom.replace σ) ↔ b ∈ (q.without position).atoms := by
  constructor
  · intro h
    obtain ⟨a, σ, ha, hσ, honto⟩ := exists_spares h
    exact ⟨a, ha, σ, hσ, honto⟩
  · rintro ⟨a, ha, σ, hσ, honto⟩
    exact Spares.isRedundant ⟨ha, hσ, honto⟩

end Query

end Conjunct
