import Conjunct.Proofs.Meaning
import Conjunct.Proofs.Multiplicity

/-!
# Overflow

A sum is computed in words, factor by factor and row by row, and ends in an error as soon as a
product or a total leaves the range of words. So it may overflow although the total that it is asked
for is a word, and whether it does depends on the order of the rows and of the factors
(`exists_overflow_in_range`).

**Theorem (`Machine.collect_sum_iff`).** If all factors are integers, a sum overflows exactly if a
partial product or the total of the first rows of a group is no word (`Overflows`), and otherwise it
yields the exact totals. Another order never changes one result into another. And no order overflows
exactly if, in every row, the product of any choice of the factors is a word and, in every group,
the sum of the positive products is a word and that of the negative ones (`Moderate`).

A sum looks at a tuple only for the variables of its group and of its factors. Therefore the theorem
is about all rows that give these variables certain values, whatever else the rows hold.
-/

namespace Conjunct

/-! ## What a sum looks at -/

/-- The field of a tuple at the first position of a variable. -/
def Atom.field? (schema : Atom) (t : Tuple) (v : Variable) : Option Constant :=
  (schema.position? v).bind fun i => t[i]?

/-- A tuple gives some variables the values that a valuation gives them. -/
def Atom.Gives (schema : Atom) (vs : List Variable) (t : Tuple) (ν : Valuation) : Prop :=
  ∀ v ∈ vs, schema.field? t v = some (ν v)

theorem SumSpec.product_congr {spec : SumSpec} {t u : Tuple}
    (h : ∀ f ∈ spec.factors, spec.factorValue t f = spec.factorValue u f) :
    spec.product t = spec.product u := by
  unfold product
  generalize (1 : Integer) = p
  generalize spec.factors = fs at h
  induction fs generalizing p with
  | nil => rfl
  | cons f fs ih =>
    have hmultiply : spec.multiply t p f = spec.multiply u p f := by
      rw [multiply, multiply, h f List.mem_cons_self]
    rw [List.foldlM_cons, List.foldlM_cons, hmultiply]
    exact congrArg (Except.bind _) (funext fun p' => ih p' fun g hg => h g (.tail f hg))

section Reading

variable {schema : Atom} {outputs : List Variable} {s : Aggregate} {spec : SumSpec}

/-- The variables of a resolved sum occur in the schema. -/
theorem exists_position?_of_resolveSum (h : Plan.resolveSum schema outputs s = .ok spec) :
    ∀ v ∈ outputs ++ s.vars, ∃ i, schema.position? v = some i := by
  obtain ⟨-, hgroup, hfactors⟩ := Machine.of_resolveSum h
  intro v hv
  rcases List.mem_append.mp hv with hv | hv
  · obtain ⟨p, hlocate⟩ := exists_ok_of_mapM hgroup v hv
    exact ⟨_, (Plan.position?_of_locate hlocate).2⟩
  · obtain ⟨f, hf⟩ := exists_ok_of_mapM hfactors _ (Term.mem_variablesOf.mp hv)
    obtain ⟨p, hlocate, -⟩ := exists_of_map_eq_ok hf
    exact ⟨_, (Plan.position?_of_locate hlocate).2⟩

/-- A sum cannot tell a tuple from the value of the schema under what the tuple gives the variables
of the sum. -/
theorem accept_of_gives (h : Plan.resolveSum schema outputs s = .ok spec) {t : Tuple}
    {ν : Valuation} (hgives : schema.Gives (outputs ++ s.vars) t ν) (totals : SumSpec.Totals) :
    spec.accept totals t = spec.accept totals (schema.value ν) := by
  obtain ⟨-, hgroup, -⟩ := Machine.of_resolveSum h
  have hat : ∀ v ∈ outputs ++ s.vars, ∀ i, schema.position? v = some i →
      t[i]? = (schema.value ν)[i]? := by
    intro v hv i hi
    have hfield := hgives v hv
    rw [Atom.field?, hi] at hfield
    rw [Atom.value_position? ν hi]
    exact hfield
  have hproject : t.project? (spec.group.map Prod.snd) =
      (schema.value ν).project? (spec.group.map Prod.snd) := by
    refine Tuple.project?_congr fun i hi => ?_
    obtain ⟨p, hmem, rfl⟩ := List.mem_map.mp hi
    obtain ⟨v, hv, hlocate⟩ := exists_of_mem_mapM hgroup p hmem
    exact hat v (List.mem_append_left _ hv) p.2 (Plan.position?_of_locate hlocate).2
  have hproduct : spec.product t = spec.product (schema.value ν) := by
    refine SumSpec.product_congr fun f hf => ?_
    cases f with
    | literal n => rfl
    | field i term =>
      obtain ⟨v, hv, hi⟩ := Plan.position?_of_resolveSum h hf
      rw [SumSpec.factorValue, SumSpec.factorValue,
        hat v (List.mem_append_right _ (Term.mem_variablesOf.mpr hv)) i hi]
  -- The key exists, so the error that names the length of the tuple does not come up.
  have hkey := (resolves_of_resolveSum h).key ν
  rw [SumSpec.accept, SumSpec.accept, hproduct, hproject, hkey]

/-- A run over tuples is the run over these values. -/
theorem yield_sum_of_gives (h : Plan.resolveSum schema outputs s = .ok spec) {ts : List Tuple}
    {νs : List Valuation} (hrows : List.Forall₂ (schema.Gives (outputs ++ s.vars)) ts νs) :
    Yield.sum spec ⟨ts, none⟩ = Yield.sum spec ⟨νs.map fun ν => schema.value ν, none⟩ := by
  have hfeed : ∀ totals, Yield.feed spec.accept totals ts =
      Yield.feed spec.accept totals (νs.map fun ν => schema.value ν) := by
    induction hrows with
    | nil => exact fun _ => rfl
    | cons hgives _ ih =>
      intro totals
      rw [List.map_cons, Yield.feed, Yield.feed, accept_of_gives h hgives]
      split
      · exact ih _
      · rfl
  rw [Yield.sum, Yield.sum, Yield.drain, Yield.drain, hfeed]

end Reading

/-! ## When a run overflows -/

/-- A partial product is no word, or the total of the first rows of a group is none. -/
inductive Overflows (outputs : List Variable) (s : Aggregate) (νs : List Valuation) : Prop
  | product {ν : Valuation} (hν : ν ∈ νs) (k : Nat)
      (h : ¬ Integer.InRange (Term.productIn ν (s.factors.take k)))
  | total {earlier : List Valuation} (hinitial : earlier <+: νs) (group : Tuple)
      (h : ¬ Integer.InRange (s.total outputs earlier group))

theorem Term.productIn_cons (ν : Valuation) (t : Term) (ts : List Term) :
    productIn ν (t :: ts) = (t.value ν).toInt * productIn ν ts :=
  List.prod_cons

theorem Term.toInt_of_factorIn {ν : Valuation} {t : Term} {n : Integer}
    (h : t.factorIn ν = .ok n) : (t.value ν).toInt = n.toInt := by
  unfold factorIn at h
  split at h
  · next m hm =>
    cases h
    rw [hm, Constant.toInt]
  · cases h

/-- A step of a product multiplies by the value of the factor. -/
theorem SumSpec.of_multiply {spec : SumSpec} {u : Tuple} {p r : Integer} {f : Factor}
    (h : spec.multiply u p f = .ok r) :
    ∃ n, spec.factorValue u f = .ok n ∧ r.toInt = p.toInt * n.toInt := by
  unfold multiply at h
  split at h
  · cases h
  · next n hn =>
    split at h
    · next m hm =>
      cases h
      exact ⟨n, hn, Integer.ofInt?_eq_some_iff.mp hm⟩
    · cases h

/-- If a product has been computed, all partial products are words. -/
theorem inRange_of_foldlM_multiply {spec : SumSpec} {u : Tuple} {ν : Valuation}
    {terms : List Term} {fs : List Factor}
    (h : List.Forall₂ (fun t f => spec.factorValue u f = t.factorIn ν) terms fs) {p n : Integer}
    (hok : fs.foldlM (spec.multiply u) p = .ok n) (k : Nat) :
    Integer.InRange (p.toInt * Term.productIn ν (terms.take k)) := by
  have hzero : ∀ p : Integer, Integer.InRange (p.toInt * Term.productIn ν []) := by
    intro p
    rw [Term.productIn, List.map_nil, List.prod_nil, Int.mul_one]
    exact inRange_toInt p
  induction h generalizing p k with
  | nil =>
    rw [List.take_nil]
    exact hzero p
  | @cons t f terms fs hf hfs ih =>
    rw [List.foldlM_cons] at hok
    obtain ⟨r, hmultiply, hrest⟩ := exists_of_bind_eq_ok hok
    obtain ⟨m, hm, hr⟩ := SumSpec.of_multiply hmultiply
    cases k with
    | zero => exact hzero p
    | succ k =>
      have hrange := ih hrest k
      have ht := Term.toInt_of_factorIn (hf.symm.trans hm)
      rw [List.take_succ_cons, Term.productIn_cons, ht, ← Int.mul_assoc, ← hr]
      exact hrange

/-- A run that takes in all tuples takes in the first ones, and goes on from there. -/
theorem Yield.feed_append {β : Type} {accept : β → Tuple → β × Option EvalError} {b b' : β}
    {ts us : List Tuple} (h : feed accept b (ts ++ us) = (b', none)) :
    ∃ b₁, feed accept b ts = (b₁, none) ∧ feed accept b₁ us = (b', none) := by
  induction ts generalizing b with
  | nil => exact ⟨b, rfl, h⟩
  | cons t ts ih =>
    rw [List.cons_append, feed] at h
    rw [feed]
    split at h
    · exact ih h
    · cases h

/-- A run that takes in all tuples takes in each of them in some step. -/
theorem Yield.exists_accept_of_feed {β : Type} {accept : β → Tuple → β × Option EvalError}
    {b b' : β} {ts : List Tuple} (h : feed accept b ts = (b', none)) :
    ∀ t ∈ ts, ∃ b₁ b₂, accept b₁ t = (b₂, none) := by
  intro t ht
  obtain ⟨earlier, later, rfl⟩ := List.append_of_mem ht
  obtain ⟨b₁, -, hrest⟩ := feed_append h
  rw [feed] at hrest
  split at hrest
  · next b₂ haccept => exact ⟨b₁, b₂, haccept⟩
  · cases hrest

/-- A tuple that is taken in has a product and a key. -/
theorem SumSpec.of_accept {spec : SumSpec} {totals totals' : Totals} {t : Tuple}
    (h : spec.accept totals t = (totals', none)) :
    (∃ n, spec.product t = .ok n) ∧ ∃ group, t.project? (spec.group.map Prod.snd) = some group := by
  unfold accept at h
  split at h
  · cases h
  · next n hproduct =>
    split at h
    · cases h
    · next group hproject => exact ⟨⟨n, hproduct⟩, group, hproject⟩

theorem Yield.error?_sum_eq_none_iff {spec : SumSpec} {ts : List Tuple} :
    (Yield.sum spec ⟨ts, none⟩).error? = none ↔
      ∃ totals, feed spec.accept spec.initial ts = (totals, none) := by
  unfold Yield.sum Yield.drain
  rcases feed spec.accept spec.initial ts with ⟨totals, _ | e⟩
  · simp
  · simp [failed]

section Run

variable {schema : Atom} {outputs : List Variable} {s : Aggregate} {spec : SumSpec}
  {νs : List Valuation}

/-- A sum that yields its totals has not overflowed. -/
theorem not_overflows_of_results (hspec : Resolves schema outputs s spec)
    (h : (Yield.sum spec ⟨νs.map fun ν => schema.value ν, none⟩).error? = none) :
    ¬ Overflows outputs s νs := by
  obtain ⟨totals, hfeed⟩ := Yield.error?_sum_eq_none_iff.mp h
  intro hover
  cases hover with
  | @product ν hν k hrange =>
    -- The step for the row has computed its product.
    obtain ⟨before, after, haccept⟩ :=
      Yield.exists_accept_of_feed hfeed _ (List.mem_map_of_mem hν)
    obtain ⟨⟨n, hproduct⟩, -⟩ := SumSpec.of_accept haccept
    have hone := inRange_of_foldlM_multiply (hspec.factors ν) hproduct k
    rw [show (1 : Integer).toInt = 1 from rfl, Int.one_mul] at hone
    exact hrange hone
  | @total earlier hinitial group hrange =>
    -- The first rows are a run of their own, which has come to its totals.
    obtain ⟨later, rfl⟩ := hinitial
    rw [List.map_append] at hfeed
    obtain ⟨before, hbefore, -⟩ := Yield.feed_append hfeed
    rcases yield_sum hspec earlier with ⟨-, hfits⟩ | ⟨e, hfailed, -⟩
    · by_cases hmem : group ∈ groups outputs earlier
      · exact hrange (hfits.inRange group hmem)
      · rw [total_of_not_mem hmem] at hrange
        exact hrange (by decide)
    · have hnone := Yield.error?_sum_eq_none_iff.mpr ⟨before, hbefore⟩
      rw [hfailed] at hnone
      cases hnone

/-- With integers only, the one fault is an overflow. -/
theorem overflows_of_fault {e : EvalError} (h : SumFault outputs s νs e)
    (hintegers : ∀ ν ∈ νs, ∀ v ∈ s.vars, ∃ n, ν v = .integer n) :
    Overflows outputs s νs ∧ e = .aggregateOverflow s.render := by
  cases h with
  | string hν hv htext =>
    obtain ⟨n, hn⟩ := hintegers _ hν _ hv
    cases hn.symm.trans htext
  | product hν k h => exact ⟨.product hν k h, rfl⟩
  | total hinitial group h => exact ⟨.total hinitial group h, rfl⟩

theorem results_tally : SumSpec.results (tally outputs s νs) = s.rows outputs νs := by
  rw [tally, SumSpec.results, List.map_map]
  rfl

end Run

/-! ## Other orders -/

/-- The products of the rows of a group. -/
def Aggregate.products (s : Aggregate) (outputs : List Variable) (νs : List Valuation)
    (group : Tuple) : List Int :=
  (νs.filter fun ν => outputs.map ν = group).map fun ν => Term.productIn ν s.factors

/-- In every row, the product of any choice of the factors is a word, and in every group, so is the
sum of the positive products and the sum of the negative ones. -/
structure Moderate (outputs : List Variable) (s : Aggregate) (νs : List Valuation) : Prop where
  factors : ∀ ν ∈ νs, ∀ terms, terms.Subperm s.factors →
    Integer.InRange (Term.productIn ν terms)
  positive : ∀ group, Integer.InRange ((s.products outputs νs group).filter (0 < ·)).sum
  negative : ∀ group, Integer.InRange ((s.products outputs νs group).filter (· < 0)).sum

/-- Any sum of some of the numbers lies between the sum of the negative ones and the sum of the
positive ones. -/
theorem sum_mem_of_sublist {xs ys : List Int} (h : xs.Sublist ys) :
    (ys.filter (· < 0)).sum ≤ xs.sum ∧ xs.sum ≤ (ys.filter (0 < ·)).sum := by
  have hcons : ∀ (p : Int → Bool) (y : Int) (ys : List Int),
      ((y :: ys).filter p).sum = (if p y then y else 0) + (ys.filter p).sum := by
    intro p y ys
    cases hy : p y <;> simp [hy]
  induction h with
  | slnil => exact ⟨Int.le_refl 0, Int.le_refl 0⟩
  | cons y _ ih =>
    rw [hcons, hcons]
    simp only [decide_eq_true_iff]
    omega
  | cons_cons y _ ih =>
    rw [hcons, hcons, List.sum_cons]
    simp only [decide_eq_true_iff]
    omega

section Order

variable {outputs : List Variable} {s s' : Aggregate} {νs νs' : List Valuation}

theorem Term.productIn_perm {terms terms' : List Term} (h : terms.Perm terms') (ν : Valuation) :
    productIn ν terms = productIn ν terms' :=
  (h.map _).prod_eq

theorem products_perm (hfactors : s'.factors.Perm s.factors) (hrows : νs'.Perm νs)
    (group : Tuple) : (s'.products outputs νs' group).Perm (s.products outputs νs group) := by
  unfold Aggregate.products
  simp only [fun ν => Term.productIn_perm hfactors ν]
  exact (hrows.filter _).map _

/-- The totals do not depend on the order. -/
theorem rows_perm (hfactors : s'.factors.Perm s.factors) (hrows : νs'.Perm νs) :
    (s'.rows outputs νs').Perm (s.rows outputs νs) := by
  have htotal : ∀ group, s'.total outputs νs' group = s.total outputs νs group := fun group =>
    (products_perm hfactors hrows group).sum_eq
  have hgroups : (groups outputs νs').Perm (groups outputs νs) := by
    refine (List.perm_ext_iff_of_nodup nodup_groups nodup_groups).mpr fun group => ?_
    unfold groups
    split
    · exact Iff.rfl
    · rw [List.mem_eraseDups, List.mem_eraseDups, (hrows.map _).mem_iff]
  unfold Aggregate.rows
  simp only [htotal]
  exact hgroups.map _

/-- Moderate rows and factors do not overflow in any order. -/
theorem Moderate.not_overflows (h : Moderate outputs s νs) (hfactors : s'.factors.Perm s.factors)
    (hrows : νs'.Perm νs) : ¬ Overflows outputs s' νs' := by
  intro hover
  cases hover with
  | @product ν hν k hrange =>
    have hchoice : (s'.factors.take k).Subperm s.factors :=
      (List.take_sublist k _).subperm.trans hfactors.subperm
    exact hrange (h.factors ν (hrows.subset hν) _ hchoice)
  | @total earlier hinitial group hrange =>
    have hsub : (s'.products outputs earlier group).Sublist (s'.products outputs νs' group) :=
      (hinitial.sublist.filter _).map _
    have hperm : (s'.products outputs νs' group).Perm (s.products outputs νs group) :=
      products_perm hfactors hrows group
    obtain ⟨hlow, hhigh⟩ := sum_mem_of_sublist hsub
    rw [(hperm.filter _).sum_eq] at hlow hhigh
    exact hrange ⟨(h.negative group).1.trans hlow, hhigh.trans_lt (h.positive group).2⟩

/-- The rows of a group can be put in front whose products are chosen. -/
theorem inRange_filter_products
    (h : ∀ νs' : List Valuation, νs'.Perm νs → ¬ Overflows outputs s νs') (p : Int → Bool)
    (group : Tuple) : Integer.InRange ((s.products outputs νs group).filter p).sum := by
  let chosen (ν : Valuation) : Bool := outputs.map ν = group && p (Term.productIn ν s.factors)
  have htotal : s.total outputs (νs.filter chosen) group =
      ((s.products outputs νs group).filter p).sum := by
    rw [Aggregate.total, Aggregate.products, List.filter_map, List.filter_filter,
      List.filter_filter]
    refine congrArg (fun νs => (List.map _ νs).sum) (List.filter_congr fun ν _ => ?_)
    simp only [chosen, Function.comp_apply]
    cases decide (outputs.map ν = group) <;> simp
  by_contra hrange
  rw [← htotal] at hrange
  exact h _ (List.filter_append_perm chosen νs) (.total (List.prefix_append _ _) group hrange)

/-- If no order overflows, the rows and factors are moderate. -/
theorem moderate_of_not_overflows (h : ∀ (s' : Aggregate) (νs' : List Valuation),
    s'.factors.Perm s.factors → νs'.Perm νs → ¬ Overflows outputs s' νs') :
    Moderate outputs s νs := by
  have hrows : ∀ νs' : List Valuation, νs'.Perm νs → ¬ Overflows outputs s νs' := fun νs' =>
    h s νs' (.refl _)
  refine ⟨fun ν hν terms hterms => ?_, inRange_filter_products hrows _,
    inRange_filter_products hrows _⟩
  obtain ⟨sub, hsub, hsublist⟩ := hterms
  obtain ⟨others, hothers⟩ := hsublist.exists_perm_append
  have hperm : (terms ++ others).Perm s.factors :=
    (hsub.symm.append_right others).trans hothers.symm
  by_contra hrange
  refine h ⟨terms ++ others⟩ νs hperm (.refl _) (.product hν terms.length ?_)
  rwa [List.take_left]

end Order

/-! ## Machines that sum -/

/-- A machine sums over rows that give the variables of its groups and factors certain values. -/
inductive Machine.SumsOver (store : Storage) (outputs : List Variable) (s : Aggregate)
    (νs : List Valuation) : Machine → Prop
  | intro {child m : Machine} {ts : List Tuple} (hm : child.sum outputs s = .ok m)
      (hyields : child.yields store = ⟨ts, none⟩)
      (hrows : List.Forall₂ (child.schema.Gives (outputs ++ s.vars)) ts νs) :
      SumsOver store outputs s νs m

section Machine

variable {store : Storage} {outputs : List Variable} {s : Aggregate} {νs : List Valuation}
  {m : Machine}

/-- With integers only, a sum overflows and yields nothing, or it yields the exact totals. -/
theorem Machine.SumsOver.collect_cases (h : m.SumsOver store outputs s νs)
    (hintegers : ∀ ν ∈ νs, ∀ v ∈ s.vars, ∃ n, ν v = .integer n) :
    (Overflows outputs s νs ∧ (m.collect store).1 = ([], some (.aggregateOverflow s.render))) ∨
      (¬ Overflows outputs s νs ∧ Fits outputs s νs ∧
        (m.collect store).1 = (s.rows outputs νs, none)) := by
  obtain @⟨child, m, ts, hm, hyields, hrows⟩ := h
  obtain ⟨spec, hspec, rfl⟩ := exists_of_map_eq_ok hm
  have hresolves := resolves_of_resolveSum hspec
  have hsum : yields store ⟨.sum child.plan spec, (child.state, none)⟩ =
      Yield.sum spec ⟨νs.map fun ν => child.schema.value ν, none⟩ := by
    rw [← yield_sum_of_gives hspec hrows, ← hyields]
    exact (child.plan.source store).yields_sum spec child.state
  rcases yield_sum hresolves νs with ⟨hresults, hfits⟩ | ⟨e, hfailed, hfault⟩
  · have hnot := not_overflows_of_results hresolves (congrArg Yield.error? hresults)
    rw [hresults, results_tally] at hsum
    exact .inr ⟨hnot, hfits, collect_eq_of_yields hsum⟩
  · obtain ⟨hover, rfl⟩ := overflows_of_fault hfault hintegers
    rw [hfailed] at hsum
    exact .inl ⟨hover, collect_eq_of_yields hsum⟩

/-- The plan of a query sums over the solutions. -/
theorem Query.sumsOver_solutions {catalog : Catalog} {q : Query} (hsum : q.head.sum? = some s)
    (hread : ∀ a ∈ q.atoms, catalog.Readable store a.relation)
    (hplan : q.plan store catalog = .ok m) :
    m.SumsOver store q.head.outputs s
      (solutions (catalog.table store) q.atoms q.comparisons) := by
  obtain ⟨joined, hfinish, _, hshows⟩ := exists_joined_of_plan hplan hread
  rw [hsum] at hshows
  obtain ⟨ts, hts, halike⟩ := hshows
  cases (halike : ts = _)
  rw [finish, hsum] at hfinish
  have hm := of_mapError_eq_ok hfinish
  obtain ⟨spec, hspec, -⟩ := exists_of_map_eq_ok hm
  refine .intro hm hts.yields_eq (List.forall₂_map_left_iff.mpr (List.forall₂_same.mpr ?_))
  intro ν _ v hv
  obtain ⟨i, hi⟩ := exists_position?_of_resolveSum hspec v hv
  rw [Atom.field?, hi]
  exact Atom.value_position? ν hi

/-- **When a sum overflows.** With integers only, a sum overflows exactly if a partial product or
the total of the first rows of a group is no word, and otherwise yields the exact totals. Another
order of the rows and factors gives the same result if it gives a result, and all orders do if and
only if the rows are moderate. The order of the atoms of a query only is an order of the rows. -/
theorem Machine.collect_sum_iff (hsums : m.SumsOver store outputs s νs)
    (hintegers : ∀ ν ∈ νs, ∀ v ∈ s.vars, ∃ n, ν v = .integer n) :
    ((m.collect store).1 = ([], some (.aggregateOverflow s.render)) ↔ Overflows outputs s νs) ∧
      (¬ Overflows outputs s νs →
        (m.collect store).1 = (s.rows outputs νs, none) ∧ Fits outputs s νs) ∧
      (∀ {store' : Storage} {m' : Machine} {s' : Aggregate} {νs' : List Valuation},
        m'.SumsOver store' outputs s' νs' → s'.factors.Perm s.factors → νs'.Perm νs →
          ∀ us us', (m.collect store).1 = (us, none) → (m'.collect store').1 = (us', none) →
            us'.Perm us) ∧
      ((∀ (s' : Aggregate) (νs' : List Valuation), s'.factors.Perm s.factors → νs'.Perm νs →
        ¬ Overflows outputs s' νs') ↔ Moderate outputs s νs) ∧
      ∀ {catalog : Catalog} {q : Query} {m' : Machine}, q.head.outputs = outputs →
        q.head.sum? = some s → (∀ a ∈ q.atoms, catalog.Readable store a.relation) →
          q.plan store catalog = .ok m' → ∀ atoms, atoms.Perm q.atoms →
            ∃ μs, μs.Perm (solutions (catalog.table store) atoms q.comparisons) ∧
              m'.SumsOver store outputs s μs := by
  have hcases := hsums.collect_cases hintegers
  refine ⟨?overflows, ?exact, ?orders, ?moderate, ?atoms⟩
  case overflows =>
    rcases hcases with ⟨hover, hcollect⟩ | ⟨hnot, -, hcollect⟩
    · exact iff_of_true hcollect hover
    · rw [hcollect]
      exact iff_of_false (by simp) hnot
  case exact =>
    intro hnot
    rcases hcases with ⟨hover, -⟩ | ⟨-, hfits, hcollect⟩
    · exact absurd hover hnot
    · exact ⟨hcollect, hfits⟩
  case orders =>
    intro store' m' s' νs' hsums' hfactors hrows us us' hus hus'
    have hintegers' : ∀ ν ∈ νs', ∀ v ∈ s'.vars, ∃ n, ν v = .integer n := by
      intro ν hν v hv
      refine hintegers ν (hrows.subset hν) v (Term.mem_variablesOf.mpr ?_)
      exact hfactors.subset (Term.mem_variablesOf.mp hv)
    rcases hcases with ⟨-, hcollect⟩ | ⟨-, -, hcollect⟩
    · cases hcollect.symm.trans hus
    · rcases hsums'.collect_cases hintegers' with ⟨-, hcollect'⟩ | ⟨-, -, hcollect'⟩
      · cases hcollect'.symm.trans hus'
      · cases hcollect.symm.trans hus
        cases hcollect'.symm.trans hus'
        exact rows_perm hfactors hrows
  case moderate =>
    exact ⟨moderate_of_not_overflows, fun h _ _ => h.not_overflows⟩
  case atoms =>
    rintro catalog q m' rfl hsum hread hplan atoms hatoms
    exact ⟨_, solutions_perm hatoms.symm, Query.sumsOver_solutions hsum hread hplan⟩

end Machine

/-! ## Overflow in range -/

/-- Rows with one field for a variable. -/
def Machine.column (v : Variable) (ns : List Integer) : Machine :=
  rows ⟨"R", [.var v]⟩ (ns.map fun n => [.integer n])

theorem Machine.sumsOver_column {store : Storage} {v : Variable} {ns : List Integer} {m : Machine}
    (hm : (column v ns).sum [] ⟨[.var v]⟩ = .ok m) :
    m.SumsOver store [] ⟨[.var v]⟩ (ns.map fun n _ => .integer n) := by
  have hyields : (column v ns).yields store = ⟨ns.map fun n => [.integer n], none⟩ :=
    Source.yields_rows _ _
  refine .intro hm hyields ?_
  rw [List.forall₂_map_left_iff, List.forall₂_map_right_iff, List.forall₂_same]
  intro n _ w hw
  have hmem : Term.var w ∈ [Term.var v] := Term.mem_variablesOf.mp hw
  cases List.mem_singleton.mp hmem
  simp [Atom.field?, Atom.position?, column, rows, schema, Plan.schema, List.idxOf?_cons]

/-- The largest word. -/
def largest : Integer :=
  9223372036854775807

theorem collect_column_early :
    ∃ m, (Machine.column ⟨"x"⟩ [largest, 1, -1]).sum [] ⟨[.var ⟨"x"⟩]⟩ = .ok m ∧
      (m.collect Catalog.smallStore).1 = ([], some (.aggregateOverflow "SUM(x)")) := by
  refine ⟨_, rfl, ?_⟩
  apply Machine.collect_eq_of_replays (o := ⟨[], some (.aggregateOverflow "SUM(x)")⟩)
  exact Source.replays_sum (Source.replays_rows _) _

theorem collect_column_late :
    ∃ m, (Machine.column ⟨"x"⟩ [largest, -1, 1]).sum [] ⟨[.var ⟨"x"⟩]⟩ = .ok m ∧
      (m.collect Catalog.smallStore).1 = ([[.integer largest]], none) := by
  refine ⟨_, rfl, ?_⟩
  apply Machine.collect_eq_of_replays (o := ⟨[[.integer largest]], none⟩)
  exact Source.replays_sum (Source.replays_rows _) _

theorem Machine.collect_sum_iff_column :
    ∃ m m' : Machine,
      m.SumsOver Catalog.smallStore [] ⟨[.var ⟨"x"⟩]⟩
        ([largest, -1, 1].map fun n _ => .integer n) ∧
      m'.SumsOver Catalog.smallStore [] ⟨[.var ⟨"x"⟩]⟩
        ([largest, 1, -1].map fun n _ => .integer n) ∧
      ¬ Overflows [] ⟨[.var ⟨"x"⟩]⟩ ([largest, -1, 1].map fun n _ => .integer n) ∧
      Overflows [] ⟨[.var ⟨"x"⟩]⟩ ([largest, 1, -1].map fun n _ => .integer n) ∧
      ¬ Moderate [] ⟨[.var ⟨"x"⟩]⟩ ([largest, -1, 1].map fun n _ => .integer n) := by
  obtain ⟨m, hm, hcollect⟩ := collect_column_late
  obtain ⟨m', hm', hcollect'⟩ := collect_column_early
  have hintegers : ∀ (ns : List Integer) (ν : Valuation), ν ∈ ns.map (fun n _ => .integer n) →
      ∀ v ∈ Aggregate.vars ⟨[.var ⟨"x"⟩]⟩, ∃ n, ν v = .integer n := by
    rintro ns ν hν v -
    obtain ⟨n, -, rfl⟩ := List.mem_map.mp hν
    exact ⟨n, rfl⟩
  have hsums : m.SumsOver Catalog.smallStore _ _ _ := sumsOver_column hm
  have hsums' : m'.SumsOver Catalog.smallStore _ _ _ := sumsOver_column hm'
  obtain ⟨hiff, -, -, hmoderate, -⟩ := collect_sum_iff hsums (hintegers _)
  have hover := (collect_sum_iff hsums' (hintegers _)).1.mp hcollect'
  refine ⟨m, m', hsums, hsums', fun h => ?_, hover, fun h => ?_⟩
  · cases hcollect.symm.trans (hiff.mpr h)
  · exact hmoderate.mpr h ⟨[.var ⟨"x"⟩]⟩ _ (.refl _) ((List.Perm.swap _ _ []).cons _) hover

/-- A sum may overflow although its total is a word, and whether it does depends on the order of
the rows, of the factors, and of the sides of a join. -/
theorem exists_overflow_in_range :
    ((∃ m, (Machine.column ⟨"x"⟩ [largest, 1, -1]).sum [] ⟨[.var ⟨"x"⟩]⟩ = .ok m ∧
        (m.collect Catalog.smallStore).1 = ([], some (.aggregateOverflow "SUM(x)"))) ∧
      (∀ group ∈ groups [] ([largest, 1, -1].map fun n _ => .integer n),
        Integer.InRange (Aggregate.total ⟨[.var ⟨"x"⟩]⟩ []
          ([largest, 1, -1].map fun n _ => .integer n) group)) ∧
      ∃ m, (Machine.column ⟨"x"⟩ [largest, -1, 1]).sum [] ⟨[.var ⟨"x"⟩]⟩ = .ok m ∧
        (m.collect Catalog.smallStore).1 = ([[.integer largest]], none)) ∧
    ((∃ m, (Machine.column ⟨"x"⟩ [largest]).sum []
          ⟨[.var ⟨"x"⟩, .const (.integer 2), .const (.integer 0)]⟩ = .ok m ∧
        (m.collect Catalog.smallStore).1 = ([], some (.aggregateOverflow (Aggregate.render
          ⟨[.var ⟨"x"⟩, .const (.integer 2), .const (.integer 0)]⟩)))) ∧
      ∃ m, (Machine.column ⟨"x"⟩ [largest]).sum []
          ⟨[.const (.integer 0), .var ⟨"x"⟩, .const (.integer 2)]⟩ = .ok m ∧
        (m.collect Catalog.smallStore).1 = ([[.integer 0]], none)) ∧
    (∃ m, ((Machine.column ⟨"x"⟩ [1, -1]).join (Machine.column ⟨"y"⟩ [largest, 1]) []).sum []
          ⟨[.var ⟨"x"⟩, .var ⟨"y"⟩]⟩ = .ok m ∧
        (m.collect Catalog.smallStore).1 = ([], some (.aggregateOverflow "SUM(x * y)"))) ∧
      ∃ m, ((Machine.column ⟨"y"⟩ [largest, 1]).join (Machine.column ⟨"x"⟩ [1, -1]) []).sum []
          ⟨[.var ⟨"x"⟩, .var ⟨"y"⟩]⟩ = .ok m ∧
        (m.collect Catalog.smallStore).1 = ([[.integer 0]], none) := by
  refine ⟨⟨collect_column_early, by decide, collect_column_late⟩, ⟨⟨_, rfl, ?_⟩, _, rfl, ?_⟩,
    ⟨_, rfl, ?_⟩, _, rfl, ?_⟩
  · apply Machine.collect_eq_of_replays (o := .failed (.aggregateOverflow _))
    exact Source.replays_sum (Source.replays_rows _) _
  · apply Machine.collect_eq_of_replays (o := ⟨[[.integer 0]], none⟩)
    exact Source.replays_sum (Source.replays_rows _) _
  · apply Machine.collect_eq_of_replays (o := .failed (.aggregateOverflow "SUM(x * y)"))
    exact Source.replays_sum
      (Source.replays_join (Source.replays_rows _) (Source.replays_rows _) _) _
  · apply Machine.collect_eq_of_replays (o := ⟨[[.integer 0]], none⟩)
    exact Source.replays_sum
      (Source.replays_join (Source.replays_rows _) (Source.replays_rows _) _) _

end Conjunct
