import Conjunct.Proofs.Answers
import Mathlib.Tactic.Ring

/-!
# Totals

A query with a sum asks for totals: for each group of solutions that agree on the head's variables,
the sum of a product over the solutions of the group. Without head variables there is one group,
even if there is no solution. Every solution counts, and one that is found in several ways counts
several times.

**Theorem (`collect_eq_totals`).** If the relations of a query are readable, its plan yields the
totals, which are all words, or else it yields nothing and ends in an error that is due: a factor
is a string in some solution, or a partial product or a running total is no word.

The run over the solutions has the invariant that the totals kept so far are those of the solutions
met so far (`tally`), and that these fit into words (`Fits`).
-/

namespace Conjunct

/-! ## Exact values -/

/-- The value of an integer constant; a string counts as zero. -/
def Constant.toInt : Constant → Int
  | .integer n => n.toInt
  | .string _ => 0

/-- The product of some terms. -/
def Term.productIn (ν : Valuation) (terms : List Term) : Int :=
  (terms.map fun t => (t.value ν).toInt).prod

/-- The groups of solutions, by the values of some variables. -/
def groups (outputs : List Variable) (νs : List Valuation) : List Tuple :=
  if outputs = [] then [[]] else (νs.map fun ν => outputs.map ν).eraseDups

/-- The exact total of a group. -/
def Aggregate.total (s : Aggregate) (outputs : List Variable) (νs : List Valuation)
    (group : Tuple) : Int :=
  ((νs.filter fun ν => outputs.map ν = group).map fun ν => Term.productIn ν s.factors).sum

/-- One row for each group: the values that name it and its total. -/
def Aggregate.rows (s : Aggregate) (outputs : List Variable) (νs : List Valuation) : List Tuple :=
  (groups outputs νs).map fun group =>
    group ++ [.integer (Int64.ofInt (s.total outputs νs group))]

/-- All factors are integers, and all totals are words. -/
structure Fits (outputs : List Variable) (s : Aggregate) (νs : List Valuation) : Prop where
  integers : ∀ ν ∈ νs, ∀ v ∈ s.vars, ∃ n, ν v = .integer n
  inRange : ∀ group ∈ groups outputs νs, Integer.InRange (s.total outputs νs group)

/-- The errors in which a sum over some valuations may end. -/
inductive SumFault (outputs : List Variable) (s : Aggregate) (νs : List Valuation) :
    EvalError → Prop
  /-- A factor is a string. -/
  | string {ν : Valuation} {v : Variable} {text : String} (hν : ν ∈ νs) (hv : v ∈ s.vars)
      (h : ν v = .string text) :
      SumFault outputs s νs (.aggregateNotInteger v.name Kind.string.name)
  /-- A partial product is no word. -/
  | product {ν : Valuation} (hν : ν ∈ νs) (k : Nat)
      (h : ¬ Integer.InRange (Term.productIn ν (s.factors.take k))) :
      SumFault outputs s νs (.aggregateOverflow s.render)
  /-- The total of the first solutions of a group is no word. -/
  | total {earlier : List Valuation} (hinitial : earlier <+: νs) (group : Tuple)
      (h : ¬ Integer.InRange (s.total outputs earlier group)) :
      SumFault outputs s νs (.aggregateOverflow s.render)

theorem Integer.ofInt?_eq_none_iff {n : Int} : ofInt? n = none ↔ ¬ InRange n := by
  unfold ofInt?
  split <;> simp [*]

theorem Integer.toInt_ofInt {n : Int} (h : InRange n) : (Int64.ofInt n).toInt = n :=
  Int64.toInt_ofInt_of_le h.1 h.2

/-! ## Products -/

/-- The value of a term as a factor. -/
def Term.factorIn (ν : Valuation) (t : Term) : Except EvalError Integer :=
  match t.value ν with
  | .integer n => .ok n
  | .string _ => .error (.aggregateNotInteger t.render Kind.string.name)

/-- A product is exact, unless a factor is a string or a partial product is no word. -/
theorem foldlM_multiply {spec : SumSpec} {u : Tuple} {ν : Valuation} {terms : List Term}
    {fs : List Factor} (h : List.Forall₂ (fun t f => spec.factorValue u f = t.factorIn ν) terms fs)
    (p : Integer) :
    (∃ n, fs.foldlM (spec.multiply u) p = .ok n ∧
        n.toInt = p.toInt * Term.productIn ν terms ∧ ∀ t ∈ terms, ∃ m, t.value ν = .integer m) ∨
      (∃ t ∈ terms, ∃ text, t.value ν = .string text ∧ fs.foldlM (spec.multiply u) p =
        .error (.aggregateNotInteger t.render Kind.string.name)) ∨
      ∃ k, ¬ Integer.InRange (p.toInt * Term.productIn ν (terms.take k)) ∧
        fs.foldlM (spec.multiply u) p = .error (.aggregateOverflow spec.aggregate.render) := by
  induction h generalizing p with
  | nil => exact .inl ⟨p, rfl, by simp [Term.productIn], by simp⟩
  | @cons t f terms fs hf hfs ih =>
    rw [List.foldlM_cons, SumSpec.multiply, hf, Term.factorIn]
    cases ht : t.value ν with
    | string text => exact .inr (.inl ⟨t, List.mem_cons_self, text, ht, rfl⟩)
    | integer n =>
      have hcons : ∀ ts, Term.productIn ν (t :: ts) = n.toInt * Term.productIn ν ts := by
        intro ts
        simp [Term.productIn, ht, Constant.toInt]
      dsimp only
      cases hmul : Integer.mul? p n with
      | none =>
        refine .inr (.inr ⟨1, ?_, rfl⟩)
        have hrange := Integer.ofInt?_eq_none_iff.mp hmul
        rw [List.take_succ_cons, hcons]
        simpa [Term.productIn] using hrange
      | some m =>
        have hm : m.toInt = p.toInt * n.toInt := Integer.ofInt?_eq_some_iff.mp hmul
        rcases ih m with ⟨r, hr, hrint, hall⟩ | ⟨t', ht', text, hstring, hr⟩ | ⟨k, hk, hr⟩
        · refine .inl ⟨r, hr, ?_, List.forall_mem_cons.mpr ⟨⟨n, ht⟩, hall⟩⟩
          rw [hrint, hm, hcons, Int.mul_assoc]
        · exact .inr (.inl ⟨t', List.mem_cons_of_mem t ht', text, hstring, hr⟩)
        · refine .inr (.inr ⟨k + 1, ?_, hr⟩)
          rwa [List.take_succ_cons, hcons, ← Int.mul_assoc, ← hm]

/-! ## Resolved sums -/

/-- A sum has been resolved against a schema: its positions hold the values of its variables. -/
structure Resolves (schema : Atom) (outputs : List Variable) (s : Aggregate) (spec : SumSpec) :
    Prop where
  aggregate : spec.aggregate = s
  group : spec.group.map Prod.fst = outputs
  key : ∀ ν, (schema.value ν).project? (spec.group.map Prod.snd) = some (outputs.map ν)
  factors : ∀ ν, List.Forall₂ (fun t f => spec.factorValue (schema.value ν) f = t.factorIn ν)
    s.factors spec.factors
  noString : ∀ text, Term.const (.string text) ∉ s.factors

theorem factorValue_of_resolveFactor {schema : Atom} {t : Term} {f : Factor}
    (h : Plan.resolveFactor schema t = .ok f) (spec : SumSpec) (ν : Valuation) :
    spec.factorValue (schema.value ν) f = t.factorIn ν := by
  cases t with
  | const c =>
    cases c with
    | integer n =>
      cases h
      rfl
    | string text => cases h
  | var v =>
    cases hv : schema.position? v with
    | none => simp [Plan.resolveFactor, Plan.locate, hv, Except.map] at h
    | some i =>
      simp only [Plan.resolveFactor, Plan.locate, hv, Except.map, Except.ok.injEq] at h
      subst h
      simp only [SumSpec.factorValue, Atom.value_position? ν hv, Term.factorIn, Term.value]
      cases ν v <;> rfl

theorem resolves_of_resolveSum {schema : Atom} {outputs : List Variable} {s : Aggregate}
    {spec : SumSpec} (h : Plan.resolveSum schema outputs s = .ok spec) :
    Resolves schema outputs s spec := by
  obtain ⟨haggregate, hgroup, hfactors⟩ := Machine.of_resolveSum h
  have hvars : ∀ v ∈ outputs, v ∈ schema.vars := by
    intro v hv
    obtain ⟨p, hp⟩ := exists_ok_of_mapM hgroup v hv
    cases hpos : schema.position? v with
    | none => simp [Plan.locate, hpos] at hp
    | some i => exact Atom.mentions_iff.mp (Option.isSome_of_eq_some hpos)
  obtain ⟨ps, hps, hfst, hkey⟩ := Machine.exists_locate hvars
  cases hgroup.symm.trans hps
  constructor
  case aggregate => exact haggregate
  case group => exact hfst
  case key => exact hkey
  case factors =>
    intro ν
    exact (mapM_eq_ok_iff.mp hfactors).imp fun t f hf => factorValue_of_resolveFactor hf _ ν
  case noString =>
    intro text hmem
    obtain ⟨f, hf⟩ := exists_ok_of_mapM hfactors _ hmem
    cases hf

/-! ## Groups and totals -/

section Run

variable {outputs : List Variable} {s : Aggregate} {νs : List Valuation}

theorem nodup_groups : (groups outputs νs).Nodup := by
  unfold groups
  split
  · exact List.nodup_singleton []
  · exact nodup_eraseDups _

theorem mem_groups_of_mem {ν : Valuation} (h : ν ∈ νs) : outputs.map ν ∈ groups outputs νs := by
  unfold groups
  split
  · next hnil => simp [hnil]
  · exact List.mem_eraseDups.mpr (List.mem_map_of_mem h)

theorem groups_concat (ν : Valuation) :
    groups outputs (νs ++ [ν]) =
      if outputs.map ν ∈ groups outputs νs then groups outputs νs
      else groups outputs νs ++ [outputs.map ν] := by
  by_cases hnil : outputs = []
  · simp [groups, hnil]
  · simp only [groups, if_neg hnil, List.map_append, List.map_singleton, List.mem_eraseDups,
      eraseDups_append_eq]
    have hsingle : [outputs.map ν].eraseDups = [outputs.map ν] := rfl
    by_cases hmem : outputs.map ν ∈ νs.map fun ν => outputs.map ν
    · rw [hsingle, if_pos hmem, List.filter_cons_of_neg (by simpa using hmem), List.filter_nil,
        List.append_nil]
    · rw [hsingle, if_neg hmem, List.filter_cons_of_pos (by simpa using hmem), List.filter_nil]

theorem total_concat (ν : Valuation) (group : Tuple) :
    s.total outputs (νs ++ [ν]) group =
      s.total outputs νs group +
        if outputs.map ν = group then Term.productIn ν s.factors else 0 := by
  unfold Aggregate.total
  rw [List.filter_append, List.map_append, List.sum_append]
  by_cases h : outputs.map ν = group <;> simp [h]

theorem total_of_not_mem {group : Tuple} (h : group ∉ groups outputs νs) :
    s.total outputs νs group = 0 := by
  have hnone : (νs.filter fun ν => outputs.map ν = group) = [] := by
    refine List.filter_eq_nil_iff.mpr fun ν hν => ?_
    rw [decide_eq_true_iff]
    rintro rfl
    exact h (mem_groups_of_mem hν)
  rw [Aggregate.total, hnone]
  rfl

/-- The totals that are kept once some solutions have been met. -/
def tally (outputs : List Variable) (s : Aggregate) (νs : List Valuation) : SumSpec.Totals :=
  (groups outputs νs).map fun group => (group, Int64.ofInt (s.total outputs νs group))

theorem addTo?_map {gs : List Tuple} (w : Tuple → Integer) (group : Tuple) (n : Integer)
    (hnodup : gs.Nodup) :
    SumSpec.addTo? group n (gs.map fun g => (g, w g)) =
      if group ∈ gs then (Integer.add? (w group) n).map fun total =>
        gs.map fun g => (g, if g = group then total else w g)
      else some (gs.map (fun g => (g, w g)) ++ [(group, n)]) := by
  induction gs with
  | nil => rfl
  | cons g gs ih =>
    obtain ⟨hg, hnodup⟩ := List.nodup_cons.mp hnodup
    rw [List.map_cons, SumSpec.addTo?]
    by_cases heq : g = group
    · subst heq
      have hrest : ∀ total, (gs.map fun h => (h, if h = g then total else w h)) =
          gs.map fun h => (h, w h) := fun total =>
        List.map_congr_left fun h hh => by
          have hne : h ≠ g := fun heq => hg (heq.subst hh)
          rw [if_neg hne]
      simp [hrest]
    · rw [if_neg heq, ih hnodup]
      by_cases hmem : group ∈ gs
      · simp [hmem, heq, Option.map_map, Function.comp_def]
      · simp [hmem, Ne.symm heq]

theorem inRange_toInt (n : Integer) : Integer.InRange n.toInt :=
  ⟨Int64.le_toInt n, Int64.toInt_lt n⟩

/-- A further product of a known group changes the total of the group, or overflows it. -/
theorem addTo?_tally_of_mem {ν : Valuation} {n : Integer} (hfits : Fits outputs s νs)
    (hn : n.toInt = Term.productIn ν s.factors) (hmem : outputs.map ν ∈ groups outputs νs) :
    (SumSpec.addTo? (outputs.map ν) n (tally outputs s νs) = some (tally outputs s (νs ++ [ν])) ∧
        ∀ group ∈ groups outputs (νs ++ [ν]),
          Integer.InRange (s.total outputs (νs ++ [ν]) group)) ∨
      (SumSpec.addTo? (outputs.map ν) n (tally outputs s νs) = none ∧
        ¬ Integer.InRange (s.total outputs (νs ++ [ν]) (outputs.map ν))) := by
  rw [tally, addTo?_map _ _ _ nodup_groups, tally, groups_concat, if_pos hmem, if_pos hmem]
  have hold := Integer.toInt_ofInt (hfits.inRange _ hmem)
  have hnew : s.total outputs (νs ++ [ν]) (outputs.map ν) =
      (Int64.ofInt (s.total outputs νs (outputs.map ν))).toInt + n.toInt := by
    rw [total_concat, if_pos rfl, hold, hn]
  cases hadd : Integer.add? (Int64.ofInt (s.total outputs νs (outputs.map ν))) n with
  | none =>
    refine .inr ⟨rfl, ?_⟩
    rw [hnew]
    exact Integer.ofInt?_eq_none_iff.mp hadd
  | some total =>
    have htotal := (Integer.ofInt?_eq_some_iff.mp hadd).trans hnew.symm
    refine .inl ⟨congrArg some (List.map_congr_left fun group _ => ?_), fun group hgroup => ?_⟩
    · by_cases heq : group = outputs.map ν
      · rw [if_pos heq, heq, ← htotal, Int64.ofInt_toInt]
      · rw [if_neg heq, total_concat, if_neg (Ne.symm heq), Int.add_zero]
    · by_cases heq : group = outputs.map ν
      · rw [heq, ← htotal]
        exact inRange_toInt total
      · rw [total_concat, if_neg (Ne.symm heq), Int.add_zero]
        exact hfits.inRange group hgroup

/-- The first product of a group is its total. -/
theorem addTo?_tally_of_not_mem {ν : Valuation} {n : Integer} (hfits : Fits outputs s νs)
    (hn : n.toInt = Term.productIn ν s.factors) (hmem : outputs.map ν ∉ groups outputs νs) :
    SumSpec.addTo? (outputs.map ν) n (tally outputs s νs) = some (tally outputs s (νs ++ [ν])) ∧
      ∀ group ∈ groups outputs (νs ++ [ν]),
        Integer.InRange (s.total outputs (νs ++ [ν]) group) := by
  rw [tally, addTo?_map _ _ _ nodup_groups, tally, groups_concat, if_neg hmem, if_neg hmem]
  have hnew : s.total outputs (νs ++ [ν]) (outputs.map ν) = n.toInt := by
    rw [total_concat, if_pos rfl, total_of_not_mem hmem, hn, Int.zero_add]
  have hsame : ∀ group ∈ groups outputs νs,
      s.total outputs (νs ++ [ν]) group = s.total outputs νs group := by
    intro group hgroup
    have hne : outputs.map ν ≠ group := fun heq => hmem (heq.symm.subst hgroup)
    rw [total_concat, if_neg hne, Int.add_zero]
  constructor
  · rw [List.map_append, List.map_singleton, hnew, Int64.ofInt_toInt]
    refine congrArg (fun totals => some (totals ++ _)) (List.map_congr_left fun group hg => ?_)
    rw [hsame group hg]
  · intro group hgroup
    rcases List.mem_append.mp hgroup with hgroup | hgroup
    · rw [hsame group hgroup]
      exact hfits.inRange group hgroup
    · rw [List.mem_singleton.mp hgroup, hnew]
      exact inRange_toInt n

theorem addTo?_tally {ν : Valuation} {n : Integer} (hfits : Fits outputs s νs)
    (hn : n.toInt = Term.productIn ν s.factors) :
    (SumSpec.addTo? (outputs.map ν) n (tally outputs s νs) = some (tally outputs s (νs ++ [ν])) ∧
        ∀ group ∈ groups outputs (νs ++ [ν]),
          Integer.InRange (s.total outputs (νs ++ [ν]) group)) ∨
      (SumSpec.addTo? (outputs.map ν) n (tally outputs s νs) = none ∧
        ¬ Integer.InRange (s.total outputs (νs ++ [ν]) (outputs.map ν))) := by
  by_cases hmem : outputs.map ν ∈ groups outputs νs
  · exact addTo?_tally_of_mem hfits hn hmem
  · exact .inl (addTo?_tally_of_not_mem hfits hn hmem)

/-! ## The run -/

variable {schema : Atom} {spec : SumSpec}

theorem SumFault.of_prefix {earlier : List Valuation} {e : EvalError}
    (h : SumFault outputs s earlier e) (hinitial : earlier <+: νs) : SumFault outputs s νs e := by
  cases h with
  | string hν hv h => exact .string (hinitial.subset hν) hv h
  | product hν k h => exact .product (hinitial.subset hν) k h
  | total hearlier group h => exact .total (hearlier.trans hinitial) group h

theorem product_cases (hspec : Resolves schema outputs s spec) {ν : Valuation} (hν : ν ∈ νs) :
    (∃ n, spec.product (schema.value ν) = .ok n ∧ n.toInt = Term.productIn ν s.factors ∧
        ∀ v ∈ s.vars, ∃ m, ν v = .integer m) ∨
      ∃ e, spec.product (schema.value ν) = .error e ∧ SumFault outputs s νs e := by
  have hone : ∀ x, (1 : Integer).toInt * x = x := Int.one_mul
  rcases foldlM_multiply (hspec.factors ν) 1 with ⟨n, hn, hint, hall⟩ | ⟨t, ht, text, htext, hn⟩ |
    ⟨k, hk, hn⟩
  · rw [hone] at hint
    exact .inl ⟨n, hn, hint, fun v hv => hall _ (Term.mem_variablesOf.mp hv)⟩
  · cases t with
    | const c =>
      cases (htext : c = .string text)
      exact absurd ht (hspec.noString text)
    | var v => exact .inr ⟨_, hn, .string hν (Term.mem_variablesOf.mpr ht) htext⟩
  · rw [hone] at hk
    rw [hspec.aggregate] at hn
    exact .inr ⟨_, hn, .product hν k hk⟩

/-- **One step of the run.** A further solution is taken into the totals, or its product or the new
total is at fault. -/
theorem accept_tally (hspec : Resolves schema outputs s spec) (hfits : Fits outputs s νs)
    (ν : Valuation) :
    (spec.accept (tally outputs s νs) (schema.value ν) = (tally outputs s (νs ++ [ν]), none) ∧
        Fits outputs s (νs ++ [ν])) ∨
      ∃ e, spec.accept (tally outputs s νs) (schema.value ν) = (tally outputs s νs, some e) ∧
        SumFault outputs s (νs ++ [ν]) e := by
  have hν : ν ∈ νs ++ [ν] := by simp
  unfold SumSpec.accept
  rcases product_cases hspec hν with ⟨n, hn, hint, hvars⟩ | ⟨e, he, hfault⟩
  · rw [hn, hspec.key]
    dsimp only
    rcases addTo?_tally hfits hint with ⟨hadd, hrange⟩ | ⟨hadd, hrange⟩
    · rw [hadd]
      refine .inl ⟨rfl, fun μ hμ => ?_, hrange⟩
      rcases List.mem_append.mp hμ with hμ | hμ
      · exact hfits.integers μ hμ
      · rw [List.mem_singleton.mp hμ]
        exact hvars
    · rw [hadd, hspec.aggregate]
      exact .inr ⟨_, rfl, .total List.prefix_rfl _ hrange⟩
  · rw [he]
    exact .inr ⟨e, rfl, hfault⟩

/-- **The whole run.** All solutions are taken into the totals, or one of them is at fault. -/
theorem feed_tally (hspec : Resolves schema outputs s spec) (hfits : Fits outputs s νs)
    (rest : List Valuation) :
    (Yield.feed spec.accept (tally outputs s νs) (rest.map fun ν => schema.value ν) =
        (tally outputs s (νs ++ rest), none) ∧ Fits outputs s (νs ++ rest)) ∨
      ∃ totals e, Yield.feed spec.accept (tally outputs s νs) (rest.map fun ν => schema.value ν) =
        (totals, some e) ∧ SumFault outputs s (νs ++ rest) e := by
  induction rest generalizing νs with
  | nil => simpa [Yield.feed] using hfits
  | cons ν rest ih =>
    have happend : νs ++ ν :: rest = (νs ++ [ν]) ++ rest := by simp
    rw [List.map_cons, Yield.feed, happend]
    rcases accept_tally hspec hfits ν with ⟨haccept, hfits'⟩ | ⟨e, haccept, hfault⟩
    · rw [haccept]
      exact ih hfits'
    · rw [haccept]
      exact .inr ⟨_, e, rfl, hfault.of_prefix (List.prefix_append _ rest)⟩

/-- The sum over the values of a schema under some valuations: their totals, or a fault. -/
theorem yield_sum (hspec : Resolves schema outputs s spec) (νs : List Valuation) :
    (Yield.sum spec ⟨νs.map fun ν => schema.value ν, none⟩ =
        ⟨SumSpec.results (tally outputs s νs), none⟩ ∧ Fits outputs s νs) ∨
      ∃ e, Yield.sum spec ⟨νs.map fun ν => schema.value ν, none⟩ = .failed e ∧
        SumFault outputs s νs e := by
  have hinitial : spec.initial = tally outputs s [] := by
    rw [SumSpec.initial, tally, groups, ← hspec.group]
    by_cases hnil : spec.group = [] <;> simp [hnil, Aggregate.total]
  have hfits : Fits outputs s [] :=
    ⟨by simp, fun group _ => by simp [Aggregate.total, Integer.InRange]⟩
  have hrun := feed_tally hspec hfits νs
  rw [← hinitial, List.nil_append] at hrun
  rcases hrun with ⟨hfeed, hfits⟩ | ⟨totals, e, hfeed, hfault⟩
  · exact .inl ⟨by simp only [Yield.sum, Yield.drain, hfeed], hfits⟩
  · exact .inr ⟨e, by simp only [Yield.sum, Yield.drain, hfeed], hfault⟩

end Run

/-! ## Plans with a sum -/

namespace Query

/-- The totals of a query, one row for each group of its solutions. -/
noncomputable def totals (q : Query) (s : Aggregate) (table : String → List Tuple) : List Tuple :=
  s.rows q.head.outputs (solutions table q.atoms q.comparisons)

variable {store : Storage} {catalog : Catalog} {q : Query} {m : Machine} {s : Aggregate}

theorem replays_totals (hsum : q.head.sum? = some s)
    (hread : ∀ a ∈ q.atoms, catalog.Readable store a.relation)
    (hplan : q.plan store catalog = .ok m) :
    (m.Replays store ⟨q.totals s (catalog.table store), none⟩ ∧
        Fits q.head.outputs s (solutions (catalog.table store) q.atoms q.comparisons)) ∨
      ∃ e, m.Replays store (.failed e) ∧
        SumFault q.head.outputs s (solutions (catalog.table store) q.atoms q.comparisons) e := by
  obtain ⟨joined, hfinish, _, hshows⟩ := exists_joined_of_plan hplan hread
  rw [hsum] at hshows
  obtain ⟨ts, hts, halike⟩ := hshows
  cases (halike : ts = _)
  simp only [finish, hsum] at hfinish
  obtain ⟨spec, hspec, rfl⟩ := exists_of_map_eq_ok (of_mapError_eq_ok hfinish)
  have hreplays := Source.replays_sum hts spec
  rcases yield_sum (resolves_of_resolveSum hspec)
    (solutions (catalog.table store) q.atoms q.comparisons) with ⟨hsum, hfits⟩ | ⟨e, hsum, hfault⟩
  · rw [hsum, tally, SumSpec.results, List.map_map] at hreplays
    exact .inl ⟨hreplays, hfits⟩
  · rw [hsum] at hreplays
    exact .inr ⟨e, hreplays, hfault⟩

/-- **A plan with a sum yields the totals of its query**, in some order of the groups, and then they
are exact; or it yields nothing and ends in an error that is due. -/
theorem collect_eq_totals (hsum : q.head.sum? = some s)
    (hread : ∀ a ∈ q.atoms, catalog.Readable store a.relation)
    (hplan : q.plan store catalog = .ok m) :
    match (m.collect store).1 with
    | (ts, none) =>
      ts.Perm (q.totals s (catalog.table store)) ∧
        Fits q.head.outputs s (solutions (catalog.table store) q.atoms q.comparisons)
    | (ts, some e) =>
      ts = [] ∧
        SumFault q.head.outputs s (solutions (catalog.table store) q.atoms q.comparisons) e := by
  rcases replays_totals hsum hread hplan with ⟨hreplays, hfits⟩ | ⟨e, hreplays, hfault⟩
  · rw [Machine.collect_eq_of_replays hreplays]
    exact ⟨.refl _, hfits⟩
  · rw [Machine.collect_eq_of_replays hreplays]
    exact ⟨rfl, hfault⟩

theorem collect_pairsByFirst_sum :
    ∃ m, (pairsByFirst ⟨"Q", [⟨"x"⟩], some ⟨[.var ⟨"y"⟩]⟩⟩ []).plan
        Catalog.smallStore Catalog.small = .ok m ∧
      (m.collect Catalog.smallStore).1 = ([[.integer 1, .integer 10]], none) := by
  refine ⟨_, rfl, ?_⟩
  apply Machine.collect_eq_of_replays (o := ⟨[[.integer 1, .integer 10]], none⟩)
  exact Source.replays_sum
    (Source.replays_join (Source.replays_scan _ rfl) (Source.replays_scan _ rfl) _) _

theorem collect_eq_totals_pairsByFirst :
    [[.integer 1, .integer 10]].Perm
      ((pairsByFirst ⟨"Q", [⟨"x"⟩], some ⟨[.var ⟨"y"⟩]⟩⟩ []).totals ⟨[.var ⟨"y"⟩]⟩
        (Catalog.small.table Catalog.smallStore)) := by
  obtain ⟨m, hplan, hcollect⟩ := collect_pairsByFirst_sum
  have h := collect_eq_totals rfl (readable_pairsByFirst _ _) hplan
  rw [hcollect] at h
  exact h.1

end Query

end Conjunct
