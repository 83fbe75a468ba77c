import Conjunct.Proofs.Refinement
import Mathlib.Logic.Relation

/-!
# Starting again

A machine may be pulled, dumped and reset in any order, and stopped anywhere: in the middle of a
join, after an error, after a reset that failed half-way. None of this matters to the next reset
that succeeds, which leaves the machine as if it had just been put together; and a machine that has
once said that there are no more tuples says so until it is reset.

Between calls names may be taken away from files and given back, so a reset may fail and a later one
succeed; only the contents stay as they are.

**Theorem (`renewed_by_reset`).** After any calls, a reset that succeeds makes a machine new, and it
yields what every new machine with its plan yields. Once a pull finds no tuple, no later pull finds
one, unless there is a reset in between.

Resetting goes down the tree and clears the state of every operator on its way, so one case for each
operator is enough, from whatever state it starts (`Fresh.of_reset`). That there are no more tuples
is a fact about a state, and pulling does not change it (`Source.Ended`, `Plan.ended_of_pull`).
-/

namespace Conjunct

/-! ## Ended sources -/

namespace Source

variable {σ τ β : Type}

/-- A state that has no tuple to offer and is left as it is by a pull. -/
def Ended (src : Source σ) (s : σ) : Prop :=
  src.pull s = (.exhausted, s)

/-- Where a pull of one source finds no tuple, another one has ended. -/
def EndsIn (src src' : Source σ) : Prop :=
  ∀ s s', src.pull s = (.exhausted, s') → src'.Ended s'

/-- A run over an ended source takes in nothing and changes nothing. -/
theorem drain_of_ended {src : Source σ} {s : σ} (accept : β → Tuple → β × Option EvalError) (b : β)
    (h : src.Ended s) : src.drain accept b s = ((b, none), s) := by
  rw [Ended] at h
  rw [drain]
  split <;> simp_all

/-- A search finds nothing only at the end of its source. -/
theorem EndsIn.of_find {src src' : Source σ} {choose : Tuple → Except EvalError (Option Tuple)}
    {s s' : σ} (hsrc : src.EndsIn src') (h : src.find choose s = (.exhausted, s')) :
    src'.Ended s' := by
  fun_induction src.find choose s with
  | case1 => cases h
  | case2 => cases h
  | case3 s u s₁ hpull hchoose ih => exact ih h
  | case4 s s₁ hpull =>
    cases h
    exact hsrc _ _ hpull
  | case5 => cases h

theorem EndsIn.filter {src src' : Source σ} (hsrc : src.EndsIn src') (accepts : Tuple → Bool) :
    (src.filter accepts).EndsIn (src'.filter accepts) :=
  fun _ _ h => find_of_exhausted _ (hsrc.of_find h)

theorem EndsIn.distinct {src src' : Source σ} (hsrc : src.EndsIn src') (positions : List Nat) :
    (src.distinct positions).EndsIn (src'.distinct positions) := by
  rintro ⟨s, seen⟩ s' h
  simp only [Source.distinct] at h
  split at h
  · cases h
  · next hfind =>
    cases h
    simp [Ended, Source.distinct, find_of_exhausted _ (hsrc.of_find hfind)]
  · cases h

/-- What a join is left with once its outer source has ended. -/
theorem EndsIn.of_nextOuter {outer outer' : Source σ} {inner : Source τ}
    {holds : Tuple → Tuple → Bool} {used : Bool} {o : σ} {i : τ} {s : JoinState σ τ}
    (houter : outer.EndsIn outer') (h : nextOuter outer inner holds used o i = (.exhausted, s)) :
    outer'.Ended s.outer ∧ (s.phase = .between ∨ s.phase = .fresh) := by
  fun_induction nextOuter outer inner holds used o i with
  | case1 used o i resting o' hpull =>
    cases h
    refine ⟨houter _ _ hpull, ?_⟩
    cases used
    · exact .inr rfl
    · exact .inl rfl
  | case2 => cases h
  | case3 => cases h
  | case4 => cases h
  | case5 => cases h
  | case6 used o i t o' hpull i' hready i'' hfind ih => exact ih h

theorem EndsIn.join {outer outer' : Source σ} (houter : outer.EndsIn outer')
    (inner inner' : Source τ) (holds : Tuple → Tuple → Bool) :
    (outer.join inner holds).EndsIn (outer'.join inner' holds) := by
  rintro ⟨o, i, phase⟩ ⟨o', i', phase'⟩ h
  have hrest : outer'.Ended o' ∧ (phase' = .between ∨ phase' = .fresh) := by
    cases phase with
    | fresh => exact houter.of_nextOuter h
    | between => exact houter.of_nextOuter h
    | within t =>
      simp only [Source.join, pullJoin] at h
      split at h
      · cases h
      · cases h
      · exact houter.of_nextOuter h
  obtain ⟨hended, rfl | rfl⟩ := hrest
  · exact nextOuter_of_exhausted hended
  · exact nextOuter_of_exhausted hended

theorem endsIn_sum (src src' : Source σ) (spec : SumSpec) :
    (src.sum spec).EndsIn (src'.sum spec) := by
  have hdeliver : ∀ {s : σ} {ts s'}, deliver s ts = (.exhausted, s') → s' = (s, some []) := by
    intro s ts s' h
    cases ts with
    | nil => exact (Prod.mk.inj h).2.symm
    | cons t ts => cases h
  rintro ⟨s, results⟩ s' h
  obtain ⟨s₁, rfl⟩ : ∃ s₁, s' = (s₁, some []) := by
    cases results with
    | some results => exact ⟨s, hdeliver h⟩
    | none =>
      simp only [Source.sum] at h
      split at h
      · exact ⟨_, hdeliver h⟩
      · cases h
  rfl

theorem endsIn_rows (ts : List Tuple) : (rows ts).EndsIn (rows ts) := by
  intro s s' h
  cases s with
  | nil =>
    cases h
    rfl
  | cons t s => cases h

theorem scanLines_exhausted {relation : Relation} {path : Path} {row row' : Nat}
    {lines rest : List Line} (h : scanLines relation path row lines = (.exhausted, row', rest)) :
    rest = [] := by
  fun_induction scanLines relation path row lines with
  | case1 =>
    cases h
    rfl
  | case2 => cases h
  | case3 row line others _ ih => exact ih h
  | case4 => cases h
  | case5 => cases h

theorem endsIn_scan (store store' : Storage) (relation : Relation) (path : Path) :
    (scan store relation path).EndsIn (scan store' relation path) := by
  intro s s' h
  simp only [scan] at h
  split at h
  · cases h
  · obtain ⟨hanswer, rfl⟩ := Prod.mk.inj h
    have hrest := scanLines_exhausted (Prod.ext hanswer rfl)
    rw [hrest]
    rfl

end Source

/-- A plan that has run out of tuples has ended, whatever the names lead to by then. -/
theorem Plan.endsIn (store store' : Storage) (p : Plan) :
    (p.source store).EndsIn (p.source store') := by
  induction p with
  | scan relation path atom => exact Source.endsIn_scan store store' relation path
  | rows atom tuples => exact Source.endsIn_rows tuples
  | select child predicates ih => exact ih.filter _
  | join outer inner conditions ihouter ihinner => exact ihouter.join _ _ _
  | project child targets ih => exact ih.distinct _
  | sum child spec ih => exact Source.endsIn_sum _ _ spec

namespace Machine

/-! ## Calls -/

/-- What a pull or a run with some receiver makes of a machine. The names of files may have changed,
their contents have not. -/
inductive Advances (base : Storage) (m : Machine) : Machine → Prop
  | pull {store : Storage} (h : store.contents = base.contents) :
      Advances base m (m.pull store).2
  | dump {store : Storage} (h : store.contents = base.contents) {β : Type}
      (accept : β → Tuple → β × Option EvalError) (b : β) :
      Advances base m (m.drain store accept b).2

/-- What a call makes of a machine: a pull, a run, or a reset, which may fail. -/
inductive Calls (base : Storage) (m : Machine) : Machine → Prop
  | advance {m' : Machine} (h : m.Advances base m') : Calls base m m'
  | reset {store : Storage} (h : store.contents = base.contents) : Calls base m (m.reset store).2

/-- What any number of calls makes of a machine. -/
def History (base : Storage) : Machine → Machine → Prop :=
  Relation.ReflTransGen (Calls base)

/-- What any number of calls without a reset makes of a machine. -/
def Pulling (base : Storage) : Machine → Machine → Prop :=
  Relation.ReflTransGen (Advances base)

variable {base store store' : Storage} {m m' m'' : Machine}

theorem Calls.plan_eq (h : m.Calls base m') : m'.plan = m.plan := by
  cases h with
  | advance h => cases h <;> rfl
  | reset => rfl

theorem History.plan_eq (h : History base m m') : m'.plan = m.plan := by
  induction h with
  | refl => rfl
  | tail _ hcall ih => exact hcall.plan_eq.trans ih

theorem History.pull {answer : Pull} (h : History base m m')
    (hcontents : store.contents = base.contents) (hpull : m'.pull store = (answer, m'')) :
    History base m m'' := by
  have hnext : (m'.pull store).2 = m'' := congrArg Prod.snd hpull
  exact h.tail (hnext ▸ .advance (.pull hcontents))

/-! ## Ends -/

theorem Advances.eq_of_ended (hended : ∀ store, m.pull store = (.exhausted, m))
    (h : m.Advances base m') : m' = m := by
  cases h with
  | @pull store h => rw [hended store]
  | @dump store h β accept b =>
    have hpull := hended store
    obtain ⟨p, s⟩ := m
    have hs : (p.source store).Ended s := by
      cases hsource : (p.source store).pull s with
      | mk answer s' =>
        simp only [Machine.pull, hsource] at hpull
        cases hpull
        exact hsource
    simp [Machine.drain, Source.drain_of_ended _ _ hs]

theorem Pulling.eq_of_ended (hended : ∀ store, m.pull store = (.exhausted, m))
    (h : Pulling base m m') : m' = m := by
  induction h with
  | refl => rfl
  | tail _ hadvance ih =>
    rw [ih] at hadvance
    exact hadvance.eq_of_ended hended

theorem ended_of_pull (h : m.pull store = (.exhausted, m')) (store' : Storage) :
    m'.pull store' = (.exhausted, m') := by
  obtain ⟨p, s⟩ := m
  obtain ⟨hanswer, rfl⟩ := Prod.mk.inj h
  have hended := p.endsIn store store' s _ (Prod.ext hanswer rfl)
  simp only [Source.Ended] at hended
  simp [Machine.pull, hended]

/-! ## Pulls and yields -/

theorem exists_pull_of_yields_cons {t : Tuple} {ts : List Tuple} {error? : Option EvalError}
    (h : m.yields store = ⟨t :: ts, error?⟩) :
    ∃ m', m.pull store = (.tuple t, m') ∧ m'.yields store = ⟨ts, error?⟩ := by
  obtain ⟨p, s⟩ := m
  simp only [yields] at h
  cases hpull : (p.source store).pull s with
  | mk answer s' =>
    cases answer with
    | tuple u =>
      rw [Source.yields_of_tuple hpull] at h
      cases h
      exact ⟨⟨p, s'⟩, by simp [Machine.pull, hpull], rfl⟩
    | exhausted =>
      rw [Source.yields_of_exhausted hpull] at h
      cases h
    | failed e =>
      rw [Source.yields_of_failed hpull] at h
      cases h

theorem exists_pull_of_yields_nil (h : m.yields store = ⟨[], none⟩) :
    ∃ m', m.pull store = (.exhausted, m') := by
  obtain ⟨p, s⟩ := m
  simp only [yields] at h
  cases hpull : (p.source store).pull s with
  | mk answer s' =>
    cases answer with
    | tuple u =>
      rw [Source.yields_of_tuple hpull] at h
      cases h
    | exhausted => exact ⟨⟨p, s'⟩, by simp [Machine.pull, hpull]⟩
    | failed e =>
      rw [Source.yields_of_failed hpull] at h
      cases h

/-! ## Resets -/

/-- **A reset that succeeds makes a machine new**, whatever its state is. -/
theorem Fresh.of_reset (h : m.Fresh base) {s s' : m.plan.State}
    (hreset : (m.plan.source store).reset s = (.ok (), s')) : Fresh store ⟨m.plan, s'⟩ := by
  induction h with
  | @scan relation path atom m hwidth h =>
    obtain ⟨_, _, rfl⟩ := exists_of_map_eq_ok h
    simp only [Plan.source, Source.scan] at hreset
    split at hreset
    · next hopen =>
      cases hreset
      have hscan : Machine.scan store relation path atom = .ok ⟨.scan relation path atom, s'⟩ := by
        simp [Machine.scan, hopen, Except.map]
      exact .scan hwidth hscan
    · cases hreset
  | rows hwidth =>
    cases hreset
    exact .rows hwidth
  | @select child m conditions hchild h ih =>
    obtain ⟨ps, hps, rfl⟩ := exists_of_map_eq_ok h
    have hselect : (⟨child.plan, s'⟩ : Machine).select conditions =
        .ok ⟨.select child.plan ps, s'⟩ := congrArg (Except.map _) hps
    exact .select (ih hreset) hselect
  | @join outer inner houter hinner conditions ihouter ihinner =>
    obtain ⟨o, i, phase⟩ := s
    simp only [Machine.join, Plan.source, Source.join, Source.resetJoin] at hreset
    split at hreset
    · cases hreset
    · next o' ho =>
      split at hreset
      · cases hreset
      · next i' hi =>
        cases hreset
        exact .join (ihouter ho) (ihinner hi) conditions
  | @project child m targets hchild h ih =>
    obtain ⟨ps, hps, rfl⟩ := exists_of_map_eq_ok h
    obtain ⟨s, seen⟩ := s
    obtain ⟨houtcome, rfl⟩ := Prod.mk.inj hreset
    have hproject :
        (⟨child.plan, ((child.plan.source store).reset s).2⟩ : Machine).project targets =
          .ok ⟨.project child.plan ps, (((child.plan.source store).reset s).2, [])⟩ :=
      congrArg (Except.map _) hps
    exact .project (ih (Prod.ext houtcome rfl)) hproject
  | @sum child m group aggregate hchild h ih =>
    obtain ⟨spec, hspec, rfl⟩ := exists_of_map_eq_ok h
    obtain ⟨s, results⟩ := s
    obtain ⟨houtcome, rfl⟩ := Prod.mk.inj hreset
    have hsum :
        (⟨child.plan, ((child.plan.source store).reset s).2⟩ : Machine).sum group aggregate =
          .ok ⟨.sum child.plan spec, (((child.plan.source store).reset s).2, none)⟩ :=
      congrArg (Except.map _) hspec
    exact .sum (ih (Prod.ext houtcome rfl)) hsum

/-- New machines with one plan yield the same. -/
theorem Fresh.yields_congr (h : m.Fresh store) (h' : m'.Fresh store) (hplan : m.plan = m'.plan) :
    m.yields store = m'.yields store :=
  calc m.yields store
      = m.plan.meaning store := h.replays.yields_eq
    _ = m'.plan.meaning store := by rw [hplan]
    _ = m'.yields store := h'.replays.yields_eq.symm

/-- **Any history is over with a reset that succeeds**: the machine is new again, and yields the
tuples and the end that every new machine with its plan yields. **And an end is an end**: after a
pull that finds no tuple, calls other than resets find none either. -/
theorem renewed_by_reset (hfresh : m.Fresh base) (hhistory : History base m m') :
    (∀ store m'', m'.reset store = (.ok (), m'') →
        m''.Fresh store ∧ m''.plan = m.plan ∧
          ∀ new : Machine, new.Fresh store → new.plan = m.plan →
            m''.yields store = new.yields store) ∧
      ∀ store m'', store.contents = base.contents → m'.pull store = (.exhausted, m'') →
        ∀ later, Pulling base m'' later →
          ∀ store', store'.contents = base.contents → (later.pull store').1 = .exhausted := by
  have hplan := hhistory.plan_eq
  refine ⟨fun store m'' hreset => ?_, fun store m'' _ hpull later hlater store' _ => ?_⟩
  · obtain ⟨p, s⟩ := m'
    cases (hplan : p = m.plan)
    obtain ⟨houtcome, rfl⟩ := Prod.mk.inj hreset
    have hnew : Fresh store ⟨m.plan, ((m.plan.source store).reset s).2⟩ :=
      hfresh.of_reset (Prod.ext houtcome rfl)
    exact ⟨hnew, rfl, fun new hfresh' hsame => hnew.yields_congr hfresh' hsame.symm⟩
  · rw [hlater.eq_of_ended (ended_of_pull hpull), ended_of_pull hpull]

/-- The pairs of rows of the small database that agree in their first field, cut down to it. -/
def firstFields : Machine :=
  let scan (w : String) : Machine :=
    ⟨.scan ⟨"R", [.int, .int]⟩ "R.csv" ⟨"R", [.var ⟨"x"⟩, .var ⟨w⟩]⟩, ⟨.unread 0, 0⟩⟩
  ⟨.project ((scan "y").join (scan "z") []).plan [(⟨"x"⟩, 0)],
    (((scan "y").join (scan "z") []).state, [])⟩

theorem fresh_firstFields : firstFields.Fresh Catalog.smallStore := by
  have hscan : ∀ w : String, Fresh Catalog.smallStore
      ⟨.scan ⟨"R", [.int, .int]⟩ "R.csv" ⟨"R", [.var ⟨"x"⟩, .var ⟨w⟩]⟩, ⟨.unread 0, 0⟩⟩ :=
    fun w => @Fresh.scan _ ⟨"R", [.int, .int]⟩ "R.csv" ⟨"R", [.var ⟨"x"⟩, .var ⟨w⟩]⟩ _ rfl rfl
  exact @Fresh.project _ _ _ [⟨"x"⟩] (.join (hscan "y") (hscan "z") []) rfl

/-- The small database when its file has lost its name. -/
def namelessStore : Storage :=
  { Catalog.smallStore with nodes := [] }

/-- Names gone, every machine with this plan fails to start again. -/
theorem reset_firstFields_nameless (s : firstFields.plan.State) :
    (Machine.reset namelessStore ⟨firstFields.plan, s⟩).1 =
      .error (.relationUnavailable "R.csv" StorageError.notFound.message) := by
  obtain ⟨⟨o, i, phase⟩, seen⟩ := s
  rfl

/-- A pull, a reset that fails for want of a name, and one that succeeds; or two pulls, of which the
second finds no tuple. -/
theorem renewed_by_reset_firstFields :
    ∃ pulled failed renewed ended : Machine,
      firstFields.pull Catalog.smallStore = (.tuple [.integer 1], pulled) ∧
      pulled.reset namelessStore =
        (.error (.relationUnavailable "R.csv" StorageError.notFound.message), failed) ∧
      failed.reset Catalog.smallStore = (.ok (), renewed) ∧
      renewed.yields Catalog.smallStore = firstFields.yields Catalog.smallStore ∧
      pulled.pull Catalog.smallStore = (.exhausted, ended) ∧
      (ended.pull Catalog.smallStore).1 = .exhausted := by
  have hyields : firstFields.yields Catalog.smallStore = ⟨[[.integer 1]], none⟩ :=
    fresh_firstFields.replays.yields_eq.trans (by decide +kernel)
  obtain ⟨pulled, hpulled, hrest⟩ := exists_pull_of_yields_cons hyields
  obtain ⟨ended, hended⟩ := exists_pull_of_yields_nil hrest
  have hpulling : History Catalog.smallStore firstFields pulled :=
    History.pull .refl rfl hpulled
  have hfailing : History Catalog.smallStore firstFields (pulled.reset namelessStore).2 :=
    hpulling.tail (.reset rfl)
  obtain ⟨p, s⟩ := pulled
  cases (hpulling.plan_eq : p = firstFields.plan)
  have hfailed := reset_firstFields_nameless s
  have hreset : ∀ s, (Machine.reset Catalog.smallStore ⟨firstFields.plan, s⟩).1 = .ok () := by
    rintro ⟨⟨o, i, phase⟩, seen⟩
    rfl
  have hrenewed := hreset ((firstFields.plan.source namelessStore).reset s).2
  obtain ⟨_, _, hsame⟩ :=
    (renewed_by_reset fresh_firstFields hfailing).1 Catalog.smallStore _ (Prod.ext hrenewed rfl)
  have hstays := (renewed_by_reset fresh_firstFields hpulling).2 Catalog.smallStore ended rfl hended
    ended .refl Catalog.smallStore rfl
  exact ⟨_, _, _, ended, hpulled, Prod.ext hfailed rfl, Prod.ext hrenewed rfl,
    hsame _ fresh_firstFields rfl, hended, hstays⟩

end Machine

end Conjunct
