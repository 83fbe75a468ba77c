import Conjunct.Plan.Machine
import Conjunct.Proofs.FirstSeen
import Mathlib.Data.List.Nodup

/-!
# Valuations

A valuation gives every variable a constant, and so gives every atom a tuple and every comparison a
truth value. Plans know nothing of valuations: they look fields up by position. This module relates
the two. A tuple fits a schema if it is the value of the schema under some valuation; the variables
of the schema can then be read off the tuple.

* A selection accepts the tuples that fit its schema and satisfy its conditions
  (`accepts_iff_exists`).
* A join pairs the tuples that have a valuation in common which satisfies its conditions
  (`pairs_iff_exists`).
-/

namespace Conjunct

/-- A constant for every variable. -/
abbrev Valuation := Variable → Constant

/-! ## Values -/

/-- The value of a term. -/
def Term.value (ν : Valuation) : Term → Constant
  | .var v => ν v
  | .const c => c

/-- The value of an atom. -/
def Atom.value (ν : Valuation) (a : Atom) : Tuple :=
  a.terms.map (Term.value ν)

/-- Whether a comparison holds under a valuation. -/
def Comparison.holdsIn (ν : Valuation) (c : Comparison) : Bool :=
  c.op.holds (c.left.value ν) (c.right.value ν)

namespace Term

theorem mem_variablesOf {terms : List Term} {v : Variable} :
    v ∈ variablesOf terms ↔ .var v ∈ terms := by
  rw [variablesOf, List.mem_eraseDups, List.mem_filterMap]
  constructor
  · rintro ⟨t, ht, hv⟩
    cases t with
    | var w =>
      cases hv
      exact ht
    | const c => cases hv
  · exact fun h => ⟨.var v, h, rfl⟩

theorem value_congr {ν μ : Valuation} {t : Term} (h : ∀ v, t = .var v → ν v = μ v) :
    t.value ν = t.value μ := by
  cases t with
  | var v => exact h v rfl
  | const c => rfl

theorem isConst_iff {t : Term} : t.isConst = true ↔ ∀ v, ¬ t = .var v := by
  cases t <;> simp [isConst]

end Term

namespace Atom

theorem mem_vars {a : Atom} {v : Variable} : v ∈ a.vars ↔ .var v ∈ a.terms :=
  Term.mem_variablesOf

theorem mentions_iff {a : Atom} {v : Variable} : a.mentions v = true ↔ v ∈ a.vars := by
  rw [mentions, position?, List.isSome_idxOf?, mem_vars]

/-- The values of an atom under two valuations are the same exactly if the valuations agree on its
variables. -/
theorem value_eq_value_iff {ν μ : Valuation} {a : Atom} :
    a.value ν = a.value μ ↔ ∀ v ∈ a.vars, ν v = μ v := by
  rw [value, value, List.map_inj_left]
  constructor
  · exact fun h v hv => h (.var v) (mem_vars.mp hv)
  · exact fun h t ht => Term.value_congr fun v hv => h v (mem_vars.mpr (hv ▸ ht))

theorem terms_of_position? {a : Atom} {v : Variable} {i : Nat} (h : a.position? v = some i) :
    a.terms[i]? = some (.var v) := by
  obtain ⟨hi, heq, _⟩ := List.findIdx?_eq_some_iff_getElem.mp h
  rw [List.getElem?_eq_getElem hi, beq_iff_eq.mp heq]

/-- The first position of a variable holds its value. -/
theorem value_position? {a : Atom} {v : Variable} {i : Nat} (ν : Valuation)
    (h : a.position? v = some i) : (a.value ν)[i]? = some (ν v) := by
  rw [value, List.getElem?_map, terms_of_position? h]
  rfl

theorem position?_of_mem {a : Atom} {v : Variable} (h : v ∈ a.vars) :
    ∃ i, a.position? v = some i :=
  Option.isSome_iff_exists.mp (mentions_iff.mpr h)

theorem lt_arity_of_position? {a : Atom} {v : Variable} {i : Nat} (h : a.position? v = some i) :
    i < a.arity := by
  obtain ⟨hi, -⟩ := List.findIdx?_eq_some_iff_getElem.mp h
  exact hi

/-- In a joined schema the outer positions come first. -/
theorem position?_append (name : String) (outer inner : Atom) (v : Variable) :
    position? ⟨name, outer.terms ++ inner.terms⟩ v =
      (outer.position? v).or ((inner.position? v).map (· + outer.arity)) :=
  List.findIdx?_append

end Atom

namespace Comparison

theorem mem_vars {c : Comparison} {v : Variable} :
    v ∈ c.vars ↔ c.left = .var v ∨ c.right = .var v := by
  rw [vars, Term.mem_variablesOf]
  simp [eq_comm]

theorem holdsIn_congr {ν μ : Valuation} {c : Comparison} (h : ∀ v ∈ c.vars, ν v = μ v) :
    c.holdsIn ν = c.holdsIn μ := by
  rw [holdsIn, holdsIn, Term.value_congr fun v hv => h v (mem_vars.mpr (.inl hv)),
    Term.value_congr fun v hv => h v (mem_vars.mpr (.inr hv))]

theorem holdsIn_converse (ν : Valuation) (c : Comparison) : c.converse.holdsIn ν = c.holdsIn ν :=
  c.op.holds_converse _ _

theorem isGround_iff {c : Comparison} : c.isGround = true ↔ c.vars = [] := by
  rw [isGround, Bool.and_eq_true, Term.isConst_iff, Term.isConst_iff, ← forall_and,
    List.eq_nil_iff_forall_not_mem]
  simp only [mem_vars, not_or]

end Comparison

theorem Comparator.eq_holds_iff {a b : Constant} : Comparator.eq.holds a b = true ↔ a = b := by
  cases a <;> cases b <;> simp [holds, Constant.compare?, allows, Int64.toInt_inj]

/-! ## Tuples that fit a schema -/

/-- The valuation that a tuple gives the variables of its schema, as far as it has a field for
them. -/
def Atom.read (schema : Atom) (t : Tuple) : Valuation := fun v =>
  ((schema.position? v).bind fun i => t[i]?).getD (.integer 0)

theorem Atom.read_value {schema : Atom} {v : Variable} (ν : Valuation) (hv : v ∈ schema.vars) :
    schema.read (schema.value ν) v = ν v := by
  obtain ⟨i, hi⟩ := position?_of_mem hv
  simp [read, hi, value_position? ν hi]

/-- A tuple gives a variable what stands at the first position of the variable. -/
theorem Atom.getElem?_of_position? {schema : Atom} {t : Tuple} (hlen : t.length = schema.arity)
    {v : Variable} {i : Nat} (h : schema.position? v = some i) : t[i]? = some (schema.read t v) := by
  have hi : i < t.length := hlen ▸ (List.getElem?_eq_some_iff.mp (terms_of_position? h)).1
  have hfield : t[i]? = some t[i] := List.getElem?_eq_getElem hi
  simp [read, h, hfield]

/-- At the first position of a variable, no difference is seen between a tuple and the value of its
schema under what the tuple gives the variables. -/
theorem Atom.getElem?_value_read {schema : Atom} {t : Tuple} (hlen : t.length = schema.arity)
    {v : Variable} {i : Nat} (h : schema.position? v = some i) :
    (schema.value (schema.read t))[i]? = t[i]? := by
  rw [value_position? _ h, getElem?_of_position? hlen h]

theorem Tuple.holdsAt_eq_iff {x y : Option Constant} :
    holdsAt .eq x y = true ↔ ∃ c, x = some c ∧ y = some c := by
  cases x with
  | none => simp [holdsAt]
  | some a =>
    cases y with
    | none => simp [holdsAt]
    | some b => simp [holdsAt, Comparator.eq_holds_iff, eq_comm (a := a)]

theorem Atom.admitsAt_value {schema : Atom} (ν : Valuation) {term : Term} {i : Nat}
    (hterm : schema.terms[i]? = some term) : schema.admitsAt (schema.value ν) i term = true := by
  have hi : (schema.value ν)[i]? = some (term.value ν) := by
    rw [value, List.getElem?_map, hterm]
    rfl
  cases term with
  | const c => exact Tuple.holdsAt_eq_iff.mpr ⟨c, hi, rfl⟩
  | var v =>
    rw [admitsAt]
    split
    · rfl
    · next first hfirst =>
      rw [Bool.or_eq_true]
      exact .inr (Tuple.holdsAt_eq_iff.mpr ⟨ν v, value_position? ν hfirst, hi⟩)

theorem Atom.value_read_of_admits {schema : Atom} {t : Tuple} (hlen : t.length = schema.arity)
    (h : schema.admits t = true) : schema.value (schema.read t) = t := by
  have hat : ∀ i term, schema.terms[i]? = some term → schema.admitsAt t i term = true := by
    intro i term hterm
    exact List.all_eq_true.mp h (term, i) (List.mem_zipIdx_iff_getElem?.mpr hterm)
  refine List.ext_getElem? fun i => ?_
  rw [value, List.getElem?_map]
  cases hterm : schema.terms[i]? with
  | none =>
    have hi : t.length ≤ i := hlen ▸ List.getElem?_eq_none_iff.mp hterm
    rw [List.getElem?_eq_none hi]
    rfl
  | some term =>
    have hadmit := hat i term hterm
    cases term with
    | const c =>
      obtain ⟨d, hd, hcd⟩ := Tuple.holdsAt_eq_iff.mp hadmit
      rw [hd, ← hcd]
      rfl
    | var v =>
      obtain ⟨first, hfirst⟩ := position?_of_mem (mem_vars.mpr (List.mem_of_getElem? hterm))
      simp only [admitsAt, hfirst, Bool.or_eq_true, beq_iff_eq] at hadmit
      have hvalue : ∃ c, t[first]? = some c ∧ t[i]? = some c := by
        rcases hadmit with rfl | hsame
        · have hi : first < t.length := hlen ▸ (List.getElem?_eq_some_iff.mp hterm).1
          exact ⟨t[first], List.getElem?_eq_getElem hi, List.getElem?_eq_getElem hi⟩
        · exact Tuple.holdsAt_eq_iff.mp hsame
      obtain ⟨c, hc, hi⟩ := hvalue
      rw [hi]
      simp [Term.value, read, hfirst, hc]

/-- **A tuple agrees with its schema** exactly if it is the schema's value under some valuation. -/
theorem Atom.admits_iff_exists {schema : Atom} {t : Tuple} (hlen : t.length = schema.arity) :
    schema.admits t = true ↔ ∃ ν, schema.value ν = t := by
  constructor
  · exact fun h => ⟨schema.read t, value_read_of_admits hlen h⟩
  · rintro ⟨ν, rfl⟩
    refine List.all_eq_true.mpr fun (term, i) hmem => ?_
    exact admitsAt_value ν (List.mem_zipIdx_iff_getElem?.mp hmem)

theorem Atom.nodup_terms {a : Atom} (hconst : a.hasConstant = false)
    (hrepeat : a.hasRepeatedVariable = false) : a.terms.Nodup := by
  have hvars : (a.terms.filterMap Term.var?).Nodup := by
    have hlen : (a.terms.filterMap Term.var?).eraseDups.length =
        (a.terms.filterMap Term.var?).length :=
      (not_not.mp (of_decide_eq_false hrepeat)).symm
    rw [← (eraseDups_sublist _).eq_of_length hlen]
    exact nodup_eraseDups _
  have hterms : (a.terms.filterMap Term.var?).map Term.var = a.terms := by
    have hall : ∀ t ∈ a.terms, t.isConst = false := by simpa [hasConstant] using hconst
    clear hvars hrepeat hconst
    generalize a.terms = terms at hall ⊢
    induction terms with
    | nil => rfl
    | cons t ts ih =>
      have htail := ih fun u hu => hall u (List.mem_cons_of_mem t hu)
      cases t with
      | var v => simpa [Term.var?] using htail
      | const c => exact absurd (hall _ List.mem_cons_self) (by simp [Term.isConst])
  rw [← hterms]
  exact hvars.map fun _ _ h => Term.var.inj h

/-- Without constants and repeated variables, every tuple of the right length fits. -/
theorem Atom.exists_value_of_plain {schema : Atom} {t : Tuple} (hlen : t.length = schema.arity)
    (hconst : schema.hasConstant = false) (hrepeat : schema.hasRepeatedVariable = false) :
    ∃ ν, schema.value ν = t := by
  have hnodup := Atom.nodup_terms hconst hrepeat
  refine (admits_iff_exists hlen).mp (List.all_eq_true.mpr fun (term, i) hmem => ?_)
  have hterm := List.mem_zipIdx_iff_getElem?.mp hmem
  cases term with
  | const c =>
    have hmem := List.mem_of_getElem? hterm
    exact absurd (List.any_eq_true.mpr ⟨_, hmem, rfl⟩) (by simpa [hasConstant] using hconst)
  | var v =>
    obtain ⟨first, hfirst⟩ := position?_of_mem (mem_vars.mpr (List.mem_of_getElem? hterm))
    have hsame := terms_of_position? hfirst
    obtain ⟨hf, hfeq⟩ := List.getElem?_eq_some_iff.mp hsame
    obtain ⟨hi, hieq⟩ := List.getElem?_eq_some_iff.mp hterm
    have heq : first = i := (hnodup.getElem_inj_iff).mp (hfeq.trans hieq.symm)
    simp [admitsAt, hfirst, heq]

/-! ## Selections -/

/-- The value of an operand is the value of its term. -/
theorem Operand.value?_of_ofTerm? {schema : Atom} {t : Term} {o : Operand} (ν : Valuation)
    (h : ofTerm? schema t = some o) : o.value? (schema.value ν) = some (t.value ν) := by
  cases t with
  | const c =>
    cases h
    rfl
  | var v =>
    obtain ⟨i, hi, rfl⟩ := Option.map_eq_some_iff.mp h
    exact Atom.value_position? ν hi

theorem Operand.isSome_ofTerm?_iff {schema : Atom} {t : Term} :
    (ofTerm? schema t).isSome = true ↔ ∀ v, t = .var v → v ∈ schema.vars := by
  cases t with
  | const c => simp [ofTerm?]
  | var v => simp [ofTerm?, ← Atom.mentions_iff, Atom.mentions]

namespace Predicate

theorem bind?_eq_some_iff {schema : Atom} {c : Comparison} {p : Predicate} :
    bind? schema c = some p ↔
      p.source = c ∧ Operand.ofTerm? schema c.left = some p.left ∧
        Operand.ofTerm? schema c.right = some p.right := by
  cases p with
  | mk source left right =>
    simp only [bind?, Option.bind_eq_bind, Option.bind_eq_some_iff, Option.pure_def,
      Option.some.injEq, Predicate.mk.injEq]
    constructor
    · rintro ⟨l, hl, r, hr, rfl, rfl, rfl⟩
      exact ⟨rfl, hl, hr⟩
    · rintro ⟨rfl, hl, hr⟩
      exact ⟨left, hl, right, hr, rfl, rfl, rfl⟩

/-- A comparison can be resolved exactly if all its variables occur in the schema. -/
theorem isSome_bind?_iff {schema : Atom} {c : Comparison} :
    (bind? schema c).isSome = true ↔ ∀ v ∈ c.vars, v ∈ schema.vars := by
  have hsides : (bind? schema c).isSome = true ↔
      (Operand.ofTerm? schema c.left).isSome = true ∧
        (Operand.ofTerm? schema c.right).isSome = true := by
    simp only [Option.isSome_iff_exists, bind?_eq_some_iff]
    constructor
    · rintro ⟨p, _, hl, hr⟩
      exact ⟨⟨_, hl⟩, ⟨_, hr⟩⟩
    · rintro ⟨⟨l, hl⟩, ⟨r, hr⟩⟩
      exact ⟨⟨c, l, r⟩, rfl, hl, hr⟩
  rw [hsides, Operand.isSome_ofTerm?_iff, Operand.isSome_ofTerm?_iff]
  simp only [Comparison.mem_vars]
  constructor
  · rintro ⟨hl, hr⟩ v (hv | hv)
    · exact hl v hv
    · exact hr v hv
  · exact fun h => ⟨fun v hv => h v (.inl hv), fun v hv => h v (.inr hv)⟩

theorem holds_value {schema : Atom} {c : Comparison} {p : Predicate} (ν : Valuation)
    (h : bind? schema c = some p) : p.holds (schema.value ν) = c.holdsIn ν := by
  obtain ⟨rfl, hl, hr⟩ := bind?_eq_some_iff.mp h
  rw [holds, Operand.value?_of_ofTerm? ν hl, Operand.value?_of_ofTerm? ν hr]
  rfl

end Predicate

namespace Plan

/-- Conditions whose variables all occur in the schema can be resolved. -/
theorem exists_selectionPredicates {schema : Atom} {cs : List Comparison}
    (h : ∀ c ∈ cs, ∀ v ∈ c.vars, v ∈ schema.vars) :
    ∃ ps, selectionPredicates schema cs = .ok ps ∧
      ∀ ν, ps.all (·.holds (schema.value ν)) = true ↔ ∀ c ∈ cs, c.holdsIn ν = true := by
  induction cs with
  | nil => exact ⟨[], rfl, by simp⟩
  | cons c cs ih =>
    obtain ⟨ps, hps, hholds⟩ := ih fun d hd => h d (List.mem_cons_of_mem c hd)
    have hc := h c List.mem_cons_self
    obtain ⟨p, hp⟩ := Option.isSome_iff_exists.mp (Predicate.isSome_bind?_iff.mpr hc)
    have hkeep : ¬ (c.vars ≠ [] ∧ ∀ v ∈ c.vars, schema.mentions v = false) := by
      rintro ⟨hne, hnone⟩
      obtain ⟨v, hv⟩ := List.exists_mem_of_ne_nil _ hne
      exact absurd (Atom.mentions_iff.mpr (hc v hv)) (by simp [hnone v hv])
    refine ⟨p :: ps, by simp [selectionPredicates, hkeep, hp, hps, Except.map], fun ν => ?_⟩
    simp [Predicate.holds_value ν hp, ← hholds]

/-- **What a selection accepts**: the tuples that fit its schema under a valuation that satisfies
its conditions. -/
theorem accepts_iff_exists {schema : Atom} {cs : List Comparison} {ps : List Predicate}
    (hps : ∀ ν, ps.all (·.holds (schema.value ν)) = true ↔ ∀ c ∈ cs, c.holdsIn ν = true)
    {t : Tuple} (hlen : t.length = schema.arity) :
    accepts schema ps t = true ↔ ∃ ν, schema.value ν = t ∧ ∀ c ∈ cs, c.holdsIn ν = true := by
  rw [accepts, Bool.and_eq_true, Atom.admits_iff_exists hlen]
  constructor
  · rintro ⟨⟨ν, rfl⟩, hall⟩
    exact ⟨ν, rfl, (hps ν).mp hall⟩
  · rintro ⟨ν, rfl, hcs⟩
    exact ⟨⟨ν, rfl⟩, (hps ν).mpr hcs⟩

end Plan

/-! ## Joins -/

namespace JoinCondition

theorem resolve?_eq_some_iff {outer inner : Atom} {c : Comparison} {p : JoinCondition} :
    resolve? outer inner c = some p ↔
      p.source = c ∧ ∃ v w, c.left = .var v ∧ c.right = .var w ∧
        outer.position? v = some p.outer ∧ inner.position? w = some p.inner := by
  cases p with
  | mk source i j =>
    cases c with
    | mk left op right =>
      cases left with
      | const => simp [resolve?]
      | var v =>
        cases right with
        | const => simp [resolve?]
        | var w =>
          simp only [resolve?, Option.bind_eq_bind, Option.bind_eq_some_iff, Option.pure_def,
            Option.some.injEq, JoinCondition.mk.injEq, Term.var.injEq]
          constructor
          · rintro ⟨i', hi, j', hj, rfl, rfl, rfl⟩
            exact ⟨rfl, v, w, rfl, rfl, hi, hj⟩
          · rintro ⟨rfl, v', w', rfl, rfl, hi, hj⟩
            exact ⟨i, hi, j, hj, rfl, rfl, rfl⟩

theorem isSome_resolve?_iff {outer inner : Atom} {c : Comparison} :
    (resolve? outer inner c).isSome = true ↔
      ∃ v ∈ outer.vars, ∃ w ∈ inner.vars, c.left = .var v ∧ c.right = .var w := by
  simp only [Option.isSome_iff_exists, resolve?_eq_some_iff]
  constructor
  · rintro ⟨p, rfl, v, w, hl, hr, hi, hj⟩
    exact ⟨v, Atom.mentions_iff.mp (Option.isSome_of_eq_some hi), w,
      Atom.mentions_iff.mp (Option.isSome_of_eq_some hj), hl, hr⟩
  · rintro ⟨v, hv, w, hw, hl, hr⟩
    obtain ⟨i, hi⟩ := Atom.position?_of_mem hv
    obtain ⟨j, hj⟩ := Atom.position?_of_mem hw
    exact ⟨⟨c, i, j⟩, rfl, v, w, hl, hr, hi, hj⟩

theorem isSome_bind?_iff {outer inner : Atom} {c : Comparison} :
    (bind? outer inner c).isSome = true ↔
      (∃ v ∈ outer.vars, ∃ w ∈ inner.vars, c.left = .var v ∧ c.right = .var w) ∨
        ∃ v ∈ outer.vars, ∃ w ∈ inner.vars, c.right = .var v ∧ c.left = .var w := by
  rw [bind?, Option.isSome_or, Bool.or_eq_true, isSome_resolve?_iff, isSome_resolve?_iff]
  rfl

theorem holds_of_resolve? {outer inner : Atom} {c : Comparison} {p : JoinCondition}
    (ν μ : Valuation) (h : resolve? outer inner c = some p) :
    p.holds (outer.value ν) (inner.value μ) = c.op.holds (c.left.value ν) (c.right.value μ) := by
  obtain ⟨rfl, v, w, hl, hr, hi, hj⟩ := resolve?_eq_some_iff.mp h
  rw [holds, Atom.value_position? ν hi, Atom.value_position? μ hj, hl, hr]
  rfl

/-- A condition says of the values of two schemas what its comparison says of the valuation. -/
theorem holds_value {outer inner : Atom} {c : Comparison} {p : JoinCondition} (ν : Valuation)
    (h : bind? outer inner c = some p) :
    p.holds (outer.value ν) (inner.value ν) = c.holdsIn ν := by
  rcases Option.or_eq_some_iff.mp h with h | ⟨_, h⟩
  · exact holds_of_resolve? ν ν h
  · rw [holds_of_resolve? ν ν h]
    exact Comparison.holdsIn_converse ν c

/-- The condition on a variable of both schemas says that it has one value. -/
theorem holds_shared? {outer inner : Atom} {v : Variable} {p : JoinCondition} (ν μ : Valuation)
    (h : shared? outer inner v = some p) :
    p.holds (outer.value ν) (inner.value μ) = true ↔ ν v = μ v := by
  rw [holds_of_resolve? ν μ h]
  exact Comparator.eq_holds_iff

theorem exists_shared?_iff {outer inner : Atom} {v : Variable} (hv : v ∈ outer.vars) :
    (∃ p, shared? outer inner v = some p) ↔ v ∈ inner.vars := by
  rw [← Option.isSome_iff_exists, shared?, isSome_resolve?_iff]
  constructor
  · rintro ⟨x, _, y, hy, hx, hxy⟩
    cases hxy
    exact hy
  · exact fun h => ⟨v, hv, v, h, rfl, rfl⟩

end JoinCondition

namespace Plan

/-- **What a join pairs**: tuples that a single valuation accounts for, if it satisfies the
conditions that relate the two schemas. -/
theorem pairs_iff_exists {outer inner : Atom} {cs : List Comparison} (ν μ : Valuation) :
    pairs (joinConditions outer inner cs) (outer.value ν) (inner.value μ) = true ↔
      ∃ ξ, (∀ v ∈ outer.vars, ν v = ξ v) ∧ (∀ v ∈ inner.vars, μ v = ξ v) ∧
        ∀ c ∈ cs, (JoinCondition.bind? outer inner c).isSome = true → c.holdsIn ξ = true := by
  have hsplit : pairs (joinConditions outer inner cs) (outer.value ν) (inner.value μ) = true ↔
      (∀ c ∈ cs, ∀ p, JoinCondition.bind? outer inner c = some p →
        p.holds (outer.value ν) (inner.value μ) = true) ∧
      ∀ v ∈ outer.vars, v ∈ inner.vars → ν v = μ v := by
    rw [pairs, joinConditions, List.all_append, Bool.and_eq_true]
    refine and_congr ?_ ?_
    · simp only [List.all_eq_true, List.mem_filterMap]
      constructor
      · exact fun h c hc p hp => h p ⟨c, hc, hp⟩
      · rintro h p ⟨c, hc, hp⟩
        exact h c hc p hp
    · simp only [List.all_eq_true, List.mem_filterMap]
      constructor
      · intro h v hv hw
        obtain ⟨p, hp⟩ := (JoinCondition.exists_shared?_iff hv).mpr hw
        exact (JoinCondition.holds_shared? ν μ hp).mp (h p ⟨v, hv, hp⟩)
      · rintro h p ⟨v, hv, hp⟩
        exact (JoinCondition.holds_shared? ν μ hp).mpr
          (h v hv ((JoinCondition.exists_shared?_iff hv).mp ⟨p, hp⟩))
  -- Under a common valuation `ξ` of the two tuples, a condition is the comparison it comes from.
  have hcommon : ∀ ξ : Valuation, (∀ v ∈ outer.vars, ν v = ξ v) → (∀ v ∈ inner.vars, μ v = ξ v) →
      ∀ c p, JoinCondition.bind? outer inner c = some p →
        p.holds (outer.value ν) (inner.value μ) = c.holdsIn ξ := by
    intro ξ hν hμ c p hp
    rw [Atom.value_eq_value_iff.mpr hν, Atom.value_eq_value_iff.mpr hμ]
    exact JoinCondition.holds_value ξ hp
  rw [hsplit]
  constructor
  · rintro ⟨hcs, hshared⟩
    have hν : ∀ v ∈ outer.vars, ν v = if v ∈ outer.vars then ν v else μ v :=
      fun v hv => (if_pos hv).symm
    have hμ : ∀ v ∈ inner.vars, μ v = if v ∈ outer.vars then ν v else μ v := by
      intro v hv
      split
      · next hvo => exact (hshared v hvo hv).symm
      · rfl
    refine ⟨fun v => if v ∈ outer.vars then ν v else μ v, hν, hμ, fun c hc hsome => ?_⟩
    obtain ⟨p, hp⟩ := Option.isSome_iff_exists.mp hsome
    rw [← hcommon _ hν hμ c p hp]
    exact hcs c hc p hp
  · rintro ⟨ξ, hν, hμ, hcs⟩
    refine ⟨fun c hc p hp => ?_, fun v hv hw => (hν v hv).trans (hμ v hw).symm⟩
    rw [hcommon ξ hν hμ c p hp]
    exact hcs c hc (Option.isSome_of_eq_some hp)

end Plan

end Conjunct
