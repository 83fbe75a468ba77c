import Conjunct.Proofs.Folding

/-!
# Frozen queries

The atoms of a query become rows of a table when a constant of its own is put in for every variable:
the variables are *frozen*. Over the frozen atoms of a part of a query, the frozen head is an answer
to the part. If it is one to the whole query too, the rows that show this are atoms of the part, and
reading variables back off their fields (`thaw`) folds the query onto the part.

**Theorem (`exists_folds_of_answers`).** If all answers to a part of a query are answers to the
query over every table, the query folds onto the part.
-/

namespace Conjunct

/-! ## Frozen variables -/

/-- The constant that a term is. -/
def Term.const? : Term → Option Constant
  | .var _ => none
  | .const c => some c

/-- The number of characters of a string. -/
def Constant.length : Constant → Nat
  | .integer _ => 0
  | .string s => s.length

/-- Constants for variables that tell them apart, and from some given constants: longer strings
than any of these. -/
theorem exists_freezing (cs : List Constant) :
    ∃ κ : Valuation, Function.Injective κ ∧ ∀ v, κ v ∉ cs := by
  obtain ⟨n, hn⟩ : ∃ n, ∀ c ∈ cs, c.length ≤ n := by
    induction cs with
    | nil => exact ⟨0, by simp⟩
    | cons c cs ih =>
      obtain ⟨n, hn⟩ := ih
      refine ⟨max c.length n, List.forall_mem_cons.mpr ⟨Nat.le_max_left _ _, fun d hd => ?_⟩⟩
      exact Nat.le_trans (hn d hd) (Nat.le_max_right _ _)
  let lead := List.replicate (n + 1) 'x'
  refine ⟨fun v => .string (String.ofList (lead ++ v.name.toList)), fun v w heq => ?_,
    fun v hmem => ?_⟩
  · have hname : v.name = w.name := by
      simpa [String.toList_inj] using heq
    cases v
    cases w
    exact congrArg Variable.mk hname
  · have hle := hn _ hmem
    simp only [Constant.length, lead, String.length_ofList, List.length_append,
      List.length_replicate] at hle
    omega

open Classical in
/-- The variable for which a constant stands, or else the constant itself. -/
noncomputable def thaw (κ : Valuation) (c : Constant) : Term :=
  if h : ∃ v, κ v = c then .var h.choose else .const c

section Thaw

variable {κ : Valuation}

theorem thaw_freeze (hκ : Function.Injective κ) (v : Variable) : thaw κ (κ v) = .var v := by
  have h : ∃ w, κ w = κ v := ⟨v, rfl⟩
  rw [thaw, dif_pos h, hκ h.choose_spec]

theorem thaw_of_unused {c : Constant} (hc : ∀ v, κ v ≠ c) : thaw κ c = .const c := by
  rw [thaw, dif_neg fun ⟨v, hv⟩ => hc v hv]

theorem Term.replace_thaw {t : Term} (ht : ∀ c, t = .const c → ∀ v, κ v ≠ c) (ν : Valuation) :
    t.replace (fun v => thaw κ (ν v)) = thaw κ (t.value ν) := by
  cases t with
  | var v => rfl
  | const c => exact (thaw_of_unused (ht c rfl)).symm

/-- An atom whose value is the frozen form of another is replaced by the other. -/
theorem Atom.replace_thaw (hκ : Function.Injective κ) {ν : Valuation} {a b : Atom}
    (ha : ∀ c, .const c ∈ a.terms → ∀ v, κ v ≠ c) (hb : ∀ c, .const c ∈ b.terms → ∀ v, κ v ≠ c)
    (hrelation : a.relation = b.relation) (hvalue : a.value ν = b.value κ) :
    a.replace (fun v => thaw κ (ν v)) = b := by
  have hleft : ∀ t ∈ a.terms, t.replace (fun v => thaw κ (ν v)) = thaw κ (t.value ν) :=
    fun t ht => Term.replace_thaw (fun c hc => ha c (hc ▸ ht)) ν
  have hright : ∀ t ∈ b.terms, thaw κ (t.value κ) = t := by
    intro t ht
    cases t with
    | var v => exact thaw_freeze hκ v
    | const c => exact thaw_of_unused (hb c ht)
  have hterms : a.terms.map (Term.replace fun v => thaw κ (ν v)) = b.terms :=
    calc a.terms.map (Term.replace fun v => thaw κ (ν v))
        = (a.value ν).map (thaw κ) := by
          rw [value, List.map_map]
          exact List.map_congr_left hleft
      _ = (b.value κ).map (thaw κ) := by rw [hvalue]
      _ = b.terms := by
          rw [value, List.map_map]
          exact (List.map_congr_left hright).trans (List.map_id _)
  rw [Atom.replace, hrelation, hterms]

end Thaw

namespace Query

variable {q part : Query}

/-! ## Frozen atoms as tables -/

/-- The rows that the frozen atoms of a query stand for. -/
def frozenTable (q : Query) (κ : Valuation) (relation : String) : List Tuple :=
  (q.atoms.filter (·.relation = relation)).map (Atom.value κ)

/-- **If a part of a query has the same answers over every table, the query folds onto the part.**
The answer to look at is the frozen head, over the frozen atoms of the part. -/
theorem exists_folds_of_answers (hcs : q.comparisons = []) (hsum : q.head.sum? = none)
    (hhead : part.head = q.head) (hbody : part.body.Sublist q.body)
    (hbound : ∀ v ∈ part.head.outputs, v ∈ boundIn part.atoms)
    (hsame : ∀ table t, t ∈ part.answers table → t ∈ q.answers table) :
    ∃ σ : Variable → Term, (∀ v ∈ q.head.distinguished, σ v = .var v) ∧
      ∀ a ∈ q.atoms, a.replace σ ∈ part.atoms := by
  have hatoms : part.atoms.Sublist q.atoms := hbody.filterMap _
  have hpartcs : part.comparisons = [] := List.sublist_nil.mp (hcs ▸ hbody.filterMap _)
  have hqbound : ∀ v ∈ q.head.outputs, v ∈ boundIn q.atoms := by
    intro v hv
    obtain ⟨a, ha, hva⟩ := mem_boundIn.mp (hbound v (hhead ▸ hv))
    exact mem_boundIn.mpr ⟨a, hatoms.subset ha, hva⟩
  obtain ⟨κ, hκ, hfresh⟩ := exists_freezing (q.atoms.flatMap fun a => a.terms.filterMap Term.const?)
  have hunused : ∀ a ∈ q.atoms, ∀ c, .const c ∈ a.terms → ∀ v, κ v ≠ c := by
    rintro a ha c hc v rfl
    exact hfresh v (List.mem_flatMap.mpr ⟨a, ha, List.mem_filterMap.mpr ⟨_, hc, rfl⟩⟩)
  have hanswer : part.head.outputs.map κ ∈ part.answers (part.frozenTable κ) := by
    refine (mem_answers_iff hbound).mpr ⟨κ, fun a ha => ?_, by simp [hpartcs], rfl⟩
    exact List.mem_map_of_mem (List.mem_filter.mpr ⟨ha, decide_eq_true rfl⟩)
  obtain ⟨ν, hrows, _, hν⟩ := (mem_answers_iff hqbound).mp (hsame _ _ hanswer)
  refine ⟨fun v => thaw κ (ν v), fun v hv => ?_, fun a ha => ?_⟩
  · have hv' : v ∈ q.head.outputs := by
      simpa [Head.distinguished, Head.sumVariables, hsum] using hv
    show thaw κ (ν v) = .var v
    rw [hhead] at hν
    rw [List.map_inj_left.mp hν v hv', thaw_freeze hκ]
  · obtain ⟨b, hb, hvalue⟩ := List.mem_map.mp (hrows a ha)
    obtain ⟨hb, hrelation⟩ := List.mem_filter.mp hb
    rw [Atom.replace_thaw hκ (hunused a ha) (hunused b (hatoms.subset hb))
      (of_decide_eq_true hrelation).symm hvalue.symm]
    exact hb

end Query

end Conjunct
