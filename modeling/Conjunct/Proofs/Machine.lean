import Conjunct.Proofs.Solutions
import Conjunct.Proofs.Table

/-!
# Machines and solutions

A machine is put together by the constructors of `Plan.Machine`. For each of them this module says
when it succeeds, what schema the new machine has, and what the machine *shows* if its parts show
certain solutions: `m.Shows store exact νs` says that the tuples that `m` yields are the values of
its schema under the valuations `νs`, in order, up to repetitions unless `exact` is set.
-/

namespace Conjunct

namespace Machine

/-- A machine yields an yield, from its state on and after every reset. -/
def Replays (store : Storage) (m : Machine) (o : Yield) : Prop :=
  (m.plan.source store).Replays m.state o

theorem collect_eq_of_replays {store : Storage} {m : Machine} {o : Yield}
    (h : m.Replays store o) : (m.collect store).1 = (o.tuples, o.error?) := by
  have hcollect := (m.plan.source store).collect_eq_yields m.state
  rw [h.yields_eq] at hcollect
  exact hcollect

/-- A machine yields the values of its schema under some valuations, and no error. -/
def Shows (store : Storage) (exact : Bool) (m : Machine) (νs : List Valuation) : Prop :=
  ∃ ts, m.Replays store ⟨ts, none⟩ ∧ Alike exact ts (νs.map fun ν => m.schema.value ν)

/-! ## Selections -/

theorem exists_select {child : Machine} {cs : List Comparison}
    (hcs : ∀ c ∈ cs, ∀ v ∈ c.vars, v ∈ child.schema.vars) :
    ∃ m ps, child.select cs = .ok m ∧ m.schema = child.schema ∧
      (∀ ν, ps.all (·.holds (child.schema.value ν)) = true ↔ ∀ c ∈ cs, c.holdsIn ν = true) ∧
      ∀ store o, child.Replays store o →
        m.Replays store (o.filter (Plan.accepts child.schema ps)) := by
  obtain ⟨ps, hps, hholds⟩ := Plan.exists_selectionPredicates hcs
  refine ⟨⟨.select child.plan ps, child.state⟩, ps, ?_, rfl, hholds, fun store o h => ?_⟩
  · simp [select, hps, Except.map]
  · exact Source.replays_filter h _

end Machine

/-! ## Projections -/

/-- The schema of a projection. -/
def Atom.narrowed (kept : List Variable) : Atom :=
  ⟨"Project", kept.map .var⟩

/-- What a tuple gives some variables. -/
def Atom.narrow (schema : Atom) (kept : List Variable) (t : Tuple) : Tuple :=
  kept.map (schema.read t)

theorem Tuple.project?_congr {t u : Tuple} {positions : List Nat}
    (h : ∀ i ∈ positions, t[i]? = u[i]?) : t.project? positions = u.project? positions := by
  unfold project?
  induction positions with
  | nil => rfl
  | cons i positions ih =>
    rw [List.mapM_cons, List.mapM_cons, h i List.mem_cons_self,
      ih fun j hj => h j (List.mem_cons_of_mem i hj)]

/-- A located variable has its first position. -/
theorem Plan.position?_of_locate {schema : Atom} {v : Variable} {p : Variable × Nat}
    (h : locate schema v = .ok p) : p.1 = v ∧ schema.position? v = some p.2 := by
  unfold locate at h
  split at h
  · next hposition =>
    cases h
    exact ⟨rfl, hposition⟩
  · cases h

namespace Machine

/-- Variables of a schema can be located, and projecting to their positions reads them off. -/
theorem exists_locate {schema : Atom} {targets : List Variable}
    (h : ∀ v ∈ targets, v ∈ schema.vars) :
    ∃ ps, targets.mapM (Plan.locate schema) = .ok ps ∧ ps.map Prod.fst = targets ∧
      ∀ ν, (schema.value ν).project? (ps.map Prod.snd) = some (targets.map ν) := by
  induction targets with
  | nil => exact ⟨[], rfl, rfl, fun _ => rfl⟩
  | cons v vs ih =>
    obtain ⟨ps, hps, hfst, hproject⟩ := ih fun w hw => h w (List.mem_cons_of_mem v hw)
    obtain ⟨i, hi⟩ := Atom.position?_of_mem (h v List.mem_cons_self)
    refine ⟨(v, i) :: ps, ?_, by rw [List.map_cons, hfst], fun ν => ?_⟩
    · rw [List.mapM_cons, hps]
      simp [Plan.locate, hi, bind, Except.bind, pure, Except.pure]
    · have hrest := hproject ν
      rw [Tuple.project?] at hrest ⊢
      simp [List.map_cons, List.mapM_cons, Atom.value_position? ν hi, hrest]

/-- A projection to variables of the schema yields what the tuples give them, each list of values
once. -/
theorem exists_project_read {child : Machine} {targets : List Variable}
    (h : ∀ v ∈ targets, v ∈ child.schema.vars) :
    ∃ m, child.project targets = .ok m ∧ m.schema = .narrowed targets ∧
      ∀ store ts, child.Replays store ⟨ts, none⟩ → (∀ t ∈ ts, t.length = child.schema.arity) →
        m.Replays store ⟨(ts.map (child.schema.narrow targets)).eraseDups, none⟩ := by
  obtain ⟨ps, hps, hfst, hproject⟩ := exists_locate h
  refine ⟨⟨.project child.plan ps, (child.state, [])⟩, ?_, ?_, fun store ts hts hwidth => ?_⟩
  · simp [project, hps, Except.map]
  · rw [← hfst, Atom.narrowed, List.map_map]
    rfl
  · have hread : ∀ t ∈ ts,
        t.project? (ps.map Prod.snd) = some (child.schema.narrow targets t) := by
      intro t ht
      rw [Atom.narrow, ← hproject (child.schema.read t)]
      refine Tuple.project?_congr fun i hi => ?_
      obtain ⟨p, hp, rfl⟩ := List.mem_map.mp hi
      obtain ⟨v, _, hv⟩ := exists_of_mem_mapM hps p hp
      exact (Atom.getElem?_value_read (hwidth t ht) (Plan.position?_of_locate hv).2).symm
    have hdistinct := Source.replays_distinct hts (ps.map Prod.snd)
    rw [Yield.distinct_eq_eraseDups (f := child.schema.narrow targets) hread] at hdistinct
    exact hdistinct

/-- A projection of a machine that shows solutions yields their values. -/
theorem exists_project {child : Machine} {targets : List Variable}
    (h : ∀ v ∈ targets, v ∈ child.schema.vars) :
    ∃ m, child.project targets = .ok m ∧ m.schema.terms = targets.map .var ∧
      ∀ store exact νs, child.Shows store exact νs →
        m.Replays store ⟨(νs.map fun ν => targets.map ν).eraseDups, none⟩ := by
  obtain ⟨m, hm, hschema, hreplays⟩ := exists_project_read h
  refine ⟨m, hm, congrArg Atom.terms hschema, ?_⟩
  rintro store exact νs ⟨ts, hts, halike⟩
  have hwidth : ∀ t ∈ ts, t.length = child.schema.arity := by
    intro t ht
    obtain ⟨ν, _, rfl⟩ := List.mem_map.mp (halike.mem_iff.mp ht)
    exact List.length_map _
  have hlist : (ts.map (child.schema.narrow targets)).eraseDups =
      (νs.map fun ν => targets.map ν).eraseDups := by
    rw [(halike.map _).eraseDups_eq, List.map_map]
    refine congrArg List.eraseDups (List.map_congr_left fun ν _ => ?_)
    exact List.map_congr_left fun v hv => Atom.read_value ν (h v hv)
  rw [← hlist]
  exact hreplays store ts hts hwidth

/-! ## Sums -/

/-- A resolved sum has located the variables of its group and resolved its factors. -/
theorem of_resolveSum {schema : Atom} {group : List Variable} {s : Aggregate} {spec : SumSpec}
    (h : Plan.resolveSum schema group s = .ok spec) :
    spec.aggregate = s ∧ group.mapM (Plan.locate schema) = .ok spec.group ∧
      s.factors.mapM (Plan.resolveFactor schema) = .ok spec.factors := by
  obtain ⟨ps, hgroup, h⟩ := exists_of_bind_eq_ok h
  obtain ⟨fs, hfactors, h⟩ := exists_of_bind_eq_ok h
  cases h
  exact ⟨rfl, hgroup, hfactors⟩

end Machine

namespace Plan

variable {schema : Atom}

/-- What a resolved sum looks up: the first positions of its variables. -/
theorem position?_of_resolveSum {group : List Variable} {s : Aggregate} {spec : SumSpec}
    (h : resolveSum schema group s = .ok spec) {position : Nat} {term : Term}
    (hfactor : .field position term ∈ spec.factors) :
    ∃ v, .var v ∈ s.factors ∧ schema.position? v = some position := by
  obtain ⟨-, -, hfactors⟩ := Machine.of_resolveSum h
  obtain ⟨t, ht, hresolve⟩ := exists_of_mem_mapM hfactors _ hfactor
  cases t with
  | const c => cases c <;> cases hresolve
  | var v =>
    obtain ⟨p, hp, hfield⟩ := exists_of_map_eq_ok hresolve
    cases hfield
    exact ⟨v, ht, (position?_of_locate hp).2⟩

end Plan

namespace Machine

/-! ## Joins -/

/-- A join shows the matching pairs of what its sides show. -/
theorem shows_join {store : Storage} {exact : Bool} {outer inner : Machine}
    {νs μs : List Valuation} (houter : outer.Shows store exact νs)
    (hinner : inner.Shows store exact μs) (cs : List Comparison) :
    ∃ ts, (outer.join inner cs).Replays store ⟨ts, none⟩ ∧
      Alike exact ts (νs.flatMap fun ν =>
        (μs.filter fun μ => Plan.pairs (Plan.joinConditions outer.schema inner.schema cs)
          (outer.schema.value ν) (inner.schema.value μ)).map fun μ =>
            outer.schema.value ν ++ inner.schema.value μ) := by
  obtain ⟨ts, hts, htsalike⟩ := houter
  obtain ⟨us, hus, husalike⟩ := hinner
  have hjoin := Source.replays_join hts hus
    (Plan.pairs (Plan.joinConditions outer.schema inner.schema cs))
  rw [Yield.join_eq_flatMap _ _ _ rfl] at hjoin
  refine ⟨_, hjoin, ?_⟩
  have halike := htsalike.flatMap (f := fun t =>
      (us.filter (Plan.pairs (Plan.joinConditions outer.schema inner.schema cs) t)).map (t ++ ·))
    fun t _ => (husalike.filter _).map (t ++ ·)
  simpa [List.flatMap_map, List.filter_map, Function.comp_def] using halike

end Machine

end Conjunct
