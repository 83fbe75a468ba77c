import Conjunct.Proofs.Yield

/-!
# Sources in lockstep

Two sources go in *lockstep* if, from related states on, they reply in the same way to every pull
and every reset, and are left in related states (`Source.Lockstep`). The relation also says what
the tuples and the errors are like that they hand out, so that going in lockstep is an invariant as
well: it lasts through every request, whatever came before.

A source that keeps a *record* puts down its answers and the errors of its resets. Nobody reads the
record, so the source goes in lockstep with itself without the record, and what it puts down is
allowed (`Lockstep.recorded`).

For each operator there is one lemma: if what is below goes in lockstep, so does the operator.
-/

namespace Conjunct

namespace Source

variable {σ : Type}

/-- A source that puts down its answers and the errors of its resets, the latest first. -/
def recorded (src : Source σ) : Source (σ × List Pull) where
  pull := fun (s, record) =>
    let (answer, s') := src.pull s
    (answer, (s', answer :: record))
  reset := fun (s, record) =>
    match src.reset s with
    | (.ok (), s') => (.ok (), (s', record))
    | (.error e, s') => (.error e, (s', .failed e :: record))
  size := fun (s, _) => src.size s
  capacity := src.capacity
  size_pull := by
    intro (s, record) t (s', record') h
    obtain ⟨hanswer, hstate⟩ := Prod.mk.inj h
    cases hstate
    exact src.size_pull (Prod.ext hanswer rfl)
  size_reset := by
    intro (s, record) (s', record') h
    dsimp only at h
    split at h
    · next hreset =>
      cases h
      exact src.size_reset hreset
    · cases h

/-! ## Lockstep -/

variable {σ' τ τ' β : Type} {R : σ' → σ → Prop} {Q : τ' → τ → Prop} {T U : Tuple → Prop}
  {E : EvalError → Prop}

/-- An answer with allowed contents. -/
def Allowed (T : Tuple → Prop) (E : EvalError → Prop) : Pull → Prop
  | .tuple t => T t
  | .exhausted => True
  | .failed e => E e

/-- Two pulls give the same answer, which is allowed, and lead to related states. -/
inductive SamePull (R : σ' → σ → Prop) (T : Tuple → Prop) (E : EvalError → Prop) :
    Pull × σ' → Pull × σ → Prop
  | tuple {t : Tuple} {s' : σ'} {s : σ} (ht : T t) (hs : R s' s) :
      SamePull R T E (.tuple t, s') (.tuple t, s)
  | exhausted {s' : σ'} {s : σ} (hs : R s' s) : SamePull R T E (.exhausted, s') (.exhausted, s)
  | failed {e : EvalError} {s' : σ'} {s : σ} (he : E e) (hs : R s' s) :
      SamePull R T E (.failed e, s') (.failed e, s)

/-- Two resets have the same outcome and lead to related states. -/
inductive SameReset (R : σ' → σ → Prop) (E : EvalError → Prop) :
    Except EvalError Unit × σ' → Except EvalError Unit × σ → Prop
  | ok {s' : σ'} {s : σ} (hs : R s' s) : SameReset R E (.ok (), s') (.ok (), s)
  | error {e : EvalError} {s' : σ'} {s : σ} (he : E e) (hs : R s' s) :
      SameReset R E (.error e, s') (.error e, s)

/-- From related states on, two sources reply in the same way, and their tuples and errors are
allowed. -/
structure Lockstep (src' : Source σ') (src : Source σ) (R : σ' → σ → Prop) (T : Tuple → Prop)
    (E : EvalError → Prop) : Prop where
  pull : ∀ {s' s}, R s' s → SamePull R T E (src'.pull s') (src.pull s)
  reset : ∀ {s' s}, R s' s → SameReset R E (src'.reset s') (src.reset s)

theorem SamePull.of_tuple {x' : Pull × σ'} {s : σ} {t : Tuple}
    (h : SamePull R T E x' (.tuple t, s)) : ∃ s', x' = (.tuple t, s') ∧ T t ∧ R s' s := by
  cases h with
  | tuple ht hs => exact ⟨_, rfl, ht, hs⟩

theorem SamePull.of_exhausted {x' : Pull × σ'} {s : σ}
    (h : SamePull R T E x' (.exhausted, s)) : ∃ s', x' = (.exhausted, s') ∧ R s' s := by
  cases h with
  | exhausted hs => exact ⟨_, rfl, hs⟩

theorem SamePull.of_failed {x' : Pull × σ'} {s : σ} {e : EvalError}
    (h : SamePull R T E x' (.failed e, s)) : ∃ s', x' = (.failed e, s') ∧ E e ∧ R s' s := by
  cases h with
  | failed he hs => exact ⟨_, rfl, he, hs⟩

/-- A pull is the same as itself. -/
theorem SamePull.same {R : σ → σ → Prop} {x : Pull × σ} (hanswer : Allowed T E x.1)
    (hs : R x.2 x.2) : SamePull R T E x x := by
  obtain ⟨answer, s⟩ := x
  cases answer with
  | tuple t => exact .tuple hanswer hs
  | exhausted => exact .exhausted hs
  | failed e => exact .failed hanswer hs

theorem SameReset.of_ok {x' : Except EvalError Unit × σ'} {s : σ}
    (h : SameReset R E x' (.ok (), s)) : ∃ s', x' = (.ok (), s') ∧ R s' s := by
  cases h with
  | ok hs => exact ⟨_, rfl, hs⟩

theorem SameReset.of_error {x' : Except EvalError Unit × σ'} {s : σ} {e : EvalError}
    (h : SameReset R E x' (.error e, s)) : ∃ s', x' = (.error e, s') ∧ E e ∧ R s' s := by
  cases h with
  | error he hs => exact ⟨_, rfl, he, hs⟩

/-- Resets that are changed in their states only. -/
theorem SameReset.keep {g : σ' → τ'} {f : σ → τ} {x' : Except EvalError Unit × σ'}
    {x : Except EvalError Unit × σ} (h : SameReset R E x' x)
    (hf : ∀ {s' s}, R s' s → Q (g s') (f s)) : SameReset Q E (x'.1, g x'.2) (x.1, f x.2) := by
  cases h with
  | ok hs => exact .ok (hf hs)
  | error he hs => exact .error he (hf hs)

section Operators

variable {src' : Source σ'} {src : Source σ}

theorem Lockstep.of_tuple (h : src'.Lockstep src R T E) {s' : σ'} {s s₁ : σ} {t : Tuple}
    (hs : R s' s) (hpull : src.pull s = (.tuple t, s₁)) :
    ∃ s₁', src'.pull s' = (.tuple t, s₁') ∧ T t ∧ R s₁' s₁ :=
  SamePull.of_tuple (hpull ▸ h.pull hs)

theorem Lockstep.of_exhausted (h : src'.Lockstep src R T E) {s' : σ'} {s s₁ : σ}
    (hs : R s' s) (hpull : src.pull s = (.exhausted, s₁)) :
    ∃ s₁', src'.pull s' = (.exhausted, s₁') ∧ R s₁' s₁ :=
  SamePull.of_exhausted (hpull ▸ h.pull hs)

theorem Lockstep.of_failed (h : src'.Lockstep src R T E) {s' : σ'} {s s₁ : σ} {e : EvalError}
    (hs : R s' s) (hpull : src.pull s = (.failed e, s₁)) :
    ∃ s₁', src'.pull s' = (.failed e, s₁') ∧ E e ∧ R s₁' s₁ :=
  SamePull.of_failed (hpull ▸ h.pull hs)

/-! ## Records and searches -/

/-- States are related, and all that has been put down is allowed. -/
def WithRecord (R : σ' → σ → Prop) (T : Tuple → Prop) (E : EvalError → Prop)
    (x : σ' × List Pull) (s : σ) : Prop :=
  R x.1 s ∧ ∀ answer ∈ x.2, Allowed T E answer

theorem WithRecord.cons {x : σ' × List Pull} {s s₁ : σ} {s₁' : σ'} {answer : Pull}
    (h : WithRecord R T E x s) (hs : R s₁' s₁) (ha : Allowed T E answer) :
    WithRecord R T E (s₁', answer :: x.2) s₁ :=
  ⟨hs, List.forall_mem_cons.mpr ⟨ha, h.2⟩⟩

/-- A record changes nothing, and all that is put down in it is allowed. -/
theorem Lockstep.recorded (h : src'.Lockstep src R T E) :
    src'.recorded.Lockstep src (WithRecord R T E) T E := by
  constructor
  case pull =>
    intro x s hx
    have hstep : src'.recorded.pull x =
        ((src'.pull x.1).1, (src'.pull x.1).2, (src'.pull x.1).1 :: x.2) := rfl
    rw [hstep]
    cases hpull : src.pull s with
    | mk answer s₁ =>
      cases answer with
      | tuple t =>
        obtain ⟨s₁', hpull', ht, hs₁⟩ := h.of_tuple hx.1 hpull
        rw [hpull']
        exact .tuple ht (hx.cons hs₁ ht)
      | exhausted =>
        obtain ⟨s₁', hpull', hs₁⟩ := h.of_exhausted hx.1 hpull
        rw [hpull']
        exact .exhausted (hx.cons hs₁ trivial)
      | failed e =>
        obtain ⟨s₁', hpull', he, hs₁⟩ := h.of_failed hx.1 hpull
        rw [hpull']
        exact .failed he (hx.cons hs₁ he)
  case reset =>
    intro x s hx
    cases hreset : src.reset s with
    | mk outcome s₁ =>
      cases outcome with
      | ok =>
        obtain ⟨s₁', hreset', hs₁⟩ := SameReset.of_ok (hreset ▸ h.reset hx.1)
        simp only [Source.recorded, hreset']
        exact .ok ⟨hs₁, hx.2⟩
      | error e =>
        obtain ⟨s₁', hreset', he, hs₁⟩ := SameReset.of_error (hreset ▸ h.reset hx.1)
        simp only [Source.recorded, hreset']
        exact .error he (hx.cons hs₁ he)

/-- A search goes the same way in both sources. -/
theorem Lockstep.find (h : src'.Lockstep src R T E)
    {choose : Tuple → Except EvalError (Option Tuple)}
    (hchoose : ∀ t u, T t → choose t = .ok (some u) → U u)
    (hrefuse : ∀ t e, T t → choose t = .error e → E e) {s' : σ'} {s : σ} (hs : R s' s) :
    SamePull R U E (src'.find choose s') (src.find choose s) := by
  fun_induction src.find choose s generalizing s' with
  | case1 s t s₁ hpull e he =>
    obtain ⟨s₁', hpull', ht, hs₁⟩ := h.of_tuple hs hpull
    rw [find_of_tuple choose hpull', he]
    exact .failed (hrefuse t e ht he) hs₁
  | case2 s t s₁ hpull u hu =>
    obtain ⟨s₁', hpull', ht, hs₁⟩ := h.of_tuple hs hpull
    rw [find_of_tuple choose hpull', hu]
    exact .tuple (hchoose t u ht hu) hs₁
  | case3 s t s₁ hpull hnone ih =>
    obtain ⟨s₁', hpull', -, hs₁⟩ := h.of_tuple hs hpull
    rw [find_of_tuple choose hpull', hnone]
    exact ih hs₁
  | case4 s s₁ hpull =>
    obtain ⟨s₁', hpull', hs₁⟩ := h.of_exhausted hs hpull
    rw [find_of_exhausted choose hpull']
    exact .exhausted hs₁
  | case5 s e s₁ hpull =>
    obtain ⟨s₁', hpull', he, hs₁⟩ := h.of_failed hs hpull
    rw [find_of_failed choose hpull']
    exact .failed he hs₁

/-- A run passes on the same tuples in both sources. What holds of the value that is built up, and
is kept by every allowed tuple, holds in the end. -/
theorem Lockstep.drain (h : src'.Lockstep src R T E) {accept : β → Tuple → β × Option EvalError}
    {I : β → Prop} {F : EvalError → Prop} (hF : ∀ e, E e → F e)
    (hkeep : ∀ b t, I b → T t → I (accept b t).1)
    (hrefuse : ∀ b t e, I b → T t → (accept b t).2 = some e → F e) {b : β} (hb : I b) {s' : σ'}
    {s : σ} (hs : R s' s) :
    (src'.drain accept b s').1 = (src.drain accept b s).1 ∧ I (src.drain accept b s).1.1 ∧
      (∀ e, (src.drain accept b s).1.2 = some e → F e) ∧
      R (src'.drain accept b s').2 (src.drain accept b s).2 := by
  fun_induction src.drain accept b s generalizing s' with
  | case1 b s t s₁ hpull b₁ haccept ih =>
    obtain ⟨s₁', hpull', ht, hs₁⟩ := h.of_tuple hs hpull
    have hb₁ := hkeep b t hb ht
    rw [haccept] at hb₁
    rw [drain_of_tuple accept b hpull', haccept]
    exact ih hb₁ hs₁
  | case2 b s t s₁ hpull b₁ e haccept =>
    obtain ⟨s₁', hpull', ht, hs₁⟩ := h.of_tuple hs hpull
    have hb₁ := hkeep b t hb ht
    have he := hrefuse b t e hb ht
    rw [haccept] at hb₁ he
    rw [drain_of_tuple accept b hpull', haccept]
    refine ⟨rfl, hb₁, fun e' he' => ?_, hs₁⟩
    cases he'
    exact he rfl
  | case3 b s s₁ hpull =>
    obtain ⟨s₁', hpull', hs₁⟩ := h.of_exhausted hs hpull
    rw [drain_of_exhausted accept b hpull']
    exact ⟨rfl, hb, by simp, hs₁⟩
  | case4 b s e s₁ hpull =>
    obtain ⟨s₁', hpull', he, hs₁⟩ := h.of_failed hs hpull
    rw [drain_of_failed accept b hpull']
    refine ⟨rfl, hb, fun e' he' => ?_, hs₁⟩
    cases he'
    exact hF e he

/-- What is collected are allowed tuples. -/
theorem Lockstep.of_mem_collect (h : src'.Lockstep src R T E) {s' : σ'} {s : σ} (hs : R s' s) :
    ∀ t ∈ (src.collect s).1.1, T t := by
  let keep (ts : List Tuple) (t : Tuple) : List Tuple × Option EvalError := (t :: ts, none)
  have hkeep : ∀ ts t, (∀ u ∈ ts, T u) → T t → ∀ u ∈ (keep ts t).1, T u :=
    fun ts t hts ht => List.forall_mem_cons.mpr ⟨ht, hts⟩
  have hrefuse : ∀ ts t e, (∀ u ∈ ts, T u) → T t → (keep ts t).2 = some e → True :=
    fun _ _ _ _ _ _ => trivial
  obtain ⟨-, hall, -, -⟩ := h.drain (fun _ _ => trivial) hkeep hrefuse (b := []) (by simp) hs
  intro t ht
  exact hall t (List.mem_reverse.mp ht)

/-! ## Selections and projections -/

theorem Lockstep.filter (h : src'.Lockstep src R T E) (accepts : Tuple → Bool) :
    (src'.filter accepts).Lockstep (src.filter accepts) R T E := by
  constructor
  case pull =>
    intro s' s hs
    refine h.find (fun t u ht hu => ?_) (fun t e _ he => by cases he) hs
    split at hu <;> cases hu
    exact ht
  case reset => exact h.reset

/-- States are related, and what is kept beside them is the same. -/
def Beside {γ : Type} (R : σ' → σ → Prop) (x : σ' × γ) (y : σ × γ) : Prop :=
  R x.1 y.1 ∧ x.2 = y.2

theorem Lockstep.distinct (h : src'.Lockstep src R T E) {positions : List Nat}
    (hproject : ∀ t, T t → ∃ u, t.project? positions = some u ∧ U u) :
    (src'.distinct positions).Lockstep (src.distinct positions) (Beside R) U E := by
  constructor
  case pull =>
    rintro ⟨s', seen⟩ ⟨s, _⟩ h'
    obtain ⟨hs, rfl⟩ : R s' s ∧ seen = _ := h'
    have hfind : SamePull R U E (src'.find (unseen positions seen) s')
        (src.find (unseen positions seen) s) := by
      refine h.find (fun t u ht hu => ?_) (fun t e ht he => ?_) hs
      all_goals obtain ⟨w, hw, hU⟩ := hproject t ht
      · simp only [unseen, hw, Except.ok.injEq] at hu
        split at hu <;> cases hu
        exact hU
      · simp [unseen, hw] at he
    simp only [Source.distinct]
    cases hrun : src.find (unseen positions seen) s with
    | mk answer s₁ =>
      rw [hrun] at hfind
      cases answer with
      | tuple u =>
        obtain ⟨s₁', hrun', hu, hs₁⟩ := hfind.of_tuple
        rw [hrun']
        exact .tuple hu ⟨hs₁, rfl⟩
      | exhausted =>
        obtain ⟨s₁', hrun', hs₁⟩ := hfind.of_exhausted
        rw [hrun']
        exact .exhausted ⟨hs₁, rfl⟩
      | failed e =>
        obtain ⟨s₁', hrun', he, hs₁⟩ := hfind.of_failed
        rw [hrun']
        exact .failed he ⟨hs₁, rfl⟩
  case reset =>
    intro x y h'
    exact (h.reset h'.1).keep (Q := Beside R) (g := (·, [])) (f := (·, [])) fun hs => ⟨hs, rfl⟩

end Operators

/-! ## Joins -/

section Join

variable {outer' : Source σ'} {outer : Source σ} {inner' : Source τ'} {inner : Source τ}
  {V : Tuple → Prop} {holds : Tuple → Tuple → Bool}

/-- The states of two joins: both sides are related, and the loops stand at the same place. -/
structure SameLoop (R : σ' → σ → Prop) (Q : τ' → τ → Prop) (T : Tuple → Prop)
    (x : JoinState σ' τ') (y : JoinState σ τ) : Prop where
  outer : R x.outer y.outer
  inner : Q x.inner y.inner
  phase : x.phase = y.phase
  /-- The outer tuple of the loop is allowed. -/
  current : ∀ t, y.phase = .within t → T t

theorem SameLoop.within {o' : σ'} {o : σ} {i' : τ'} {i : τ} {t : Tuple} (ho : R o' o) (hi : Q i' i)
    (ht : T t) : SameLoop R Q T ⟨o', i', .within t⟩ ⟨o, i, .within t⟩ := by
  refine ⟨ho, hi, rfl, fun u hu => ?_⟩
  cases hu
  exact ht

theorem SameLoop.resting {o' : σ'} {o : σ} {i' : τ'} {i : τ} (ho : R o' o) (hi : Q i' i)
    (used : Bool) :
    SameLoop R Q T ⟨o', i', if used then .between else .fresh⟩
      ⟨o, i, if used then .between else .fresh⟩ := by
  refine ⟨ho, hi, rfl, fun u hu => ?_⟩
  cases used <;> cases hu

/-- If the inner source cannot be made ready, a join says so. -/
theorem nextOuter_of_unready {used : Bool} {o o₁ : σ} {i i₁ : τ} {t : Tuple} {e : EvalError}
    (hpull : outer.pull o = (.tuple t, o₁)) (hready : inner.rewind used i = (.error e, i₁)) :
    Source.nextOuter outer inner holds used o i = (.failed e, ⟨o₁, i₁, .within t⟩) := by
  rw [Source.nextOuter]
  split
  · simp_all
  · simp_all
  · next u o'' hpull' =>
    rw [hpull] at hpull'
    cases hpull'
    rw [hready]

/-- A search for the partner of an outer tuple. -/
theorem Lockstep.paired (h : inner'.Lockstep inner Q U E) (hpair : ∀ t u, T t → U u → V (t ++ u))
    {t : Tuple} (ht : T t) {i' : τ'} {i : τ} (hi : Q i' i) :
    SamePull Q V E (inner'.find (Source.paired holds t) i')
      (inner.find (Source.paired holds t) i) := by
  refine h.find (fun u w hu hw => ?_) (fun u e _ he => by cases he) hi
  simp only [Source.paired, Except.ok.injEq] at hw
  split at hw <;> cases hw
  exact hpair t u ht hu

theorem Lockstep.rewind (h : inner'.Lockstep inner Q U E) {used : Bool} {i' : τ'} {i : τ}
    (hi : Q i' i) : SameReset Q E (inner'.rewind used i') (inner.rewind used i) := by
  cases used with
  | true => exact h.reset hi
  | false => exact .ok hi

theorem Lockstep.nextOuter (houter : outer'.Lockstep outer R T E)
    (hinner : inner'.Lockstep inner Q U E) (hpair : ∀ t u, T t → U u → V (t ++ u)) {used : Bool}
    {o' : σ'} {o : σ} {i' : τ'} {i : τ} (ho : R o' o) (hi : Q i' i) :
    SamePull (SameLoop R Q T) V E (Source.nextOuter outer' inner' holds used o' i')
      (Source.nextOuter outer inner holds used o i) := by
  fun_induction Source.nextOuter outer inner holds used o i generalizing o' i' with
  | case1 used o i resting o₁ =>
    rename_i hpull
    obtain ⟨o₁', hpull', ho₁⟩ := houter.of_exhausted ho hpull
    rw [nextOuter_of_exhausted hpull']
    exact .exhausted (.resting ho₁ hi used)
  | case2 used o i resting e o₁ =>
    rename_i hpull
    obtain ⟨o₁', hpull', he, ho₁⟩ := houter.of_failed ho hpull
    rw [nextOuter_of_failed hpull']
    exact .failed he (.resting ho₁ hi used)
  | case3 used o i t o₁ hpull e i₁ hready =>
    obtain ⟨o₁', hpull', ht, ho₁⟩ := houter.of_tuple ho hpull
    obtain ⟨i₁', hready', he, hi₁⟩ := SameReset.of_error (hready ▸ hinner.rewind hi)
    rw [nextOuter_of_unready hpull' hready']
    exact .failed he (.within ho₁ hi₁ ht)
  | case4 used o i t o₁ hpull i₁ hready u i₂ hfind =>
    obtain ⟨o₁', hpull', ht, ho₁⟩ := houter.of_tuple ho hpull
    obtain ⟨i₁', hready', hi₁⟩ := SameReset.of_ok (hready ▸ hinner.rewind hi)
    obtain ⟨i₂', hfind', hu, hi₂⟩ := SamePull.of_tuple (hfind ▸ hinner.paired hpair ht hi₁)
    rw [nextOuter_of_tuple hpull' hready']
    simp only [pullJoin, hfind']
    exact .tuple hu (.within ho₁ hi₂ ht)
  | case5 used o i t o₁ hpull i₁ hready e i₂ hfind =>
    obtain ⟨o₁', hpull', ht, ho₁⟩ := houter.of_tuple ho hpull
    obtain ⟨i₁', hready', hi₁⟩ := SameReset.of_ok (hready ▸ hinner.rewind hi)
    obtain ⟨i₂', hfind', he, hi₂⟩ := SamePull.of_failed (hfind ▸ hinner.paired hpair ht hi₁)
    rw [nextOuter_of_tuple hpull' hready']
    simp only [pullJoin, hfind']
    exact .failed he (.within ho₁ hi₂ ht)
  | case6 used o i t o₁ hpull i₁ hready i₂ hfind ih =>
    obtain ⟨o₁', hpull', ht, ho₁⟩ := houter.of_tuple ho hpull
    obtain ⟨i₁', hready', hi₁⟩ := SameReset.of_ok (hready ▸ hinner.rewind hi)
    obtain ⟨i₂', hfind', hi₂⟩ := SamePull.of_exhausted (hfind ▸ hinner.paired hpair ht hi₁)
    rw [nextOuter_of_tuple hpull' hready']
    simp only [pullJoin, hfind']
    exact ih ho₁ hi₂

theorem Lockstep.pullJoin (houter : outer'.Lockstep outer R T E)
    (hinner : inner'.Lockstep inner Q U E) (hpair : ∀ t u, T t → U u → V (t ++ u))
    {x : JoinState σ' τ'} {y : JoinState σ τ} (h : SameLoop R Q T x y) :
    SamePull (SameLoop R Q T) V E (Source.pullJoin outer' inner' holds x)
      (Source.pullJoin outer inner holds y) := by
  obtain ⟨o', i', phase⟩ := x
  obtain ⟨o, i, _⟩ := y
  obtain ⟨ho, hi, hphase, hcurrent⟩ := h
  cases hphase
  cases phase with
  | fresh => exact houter.nextOuter hinner hpair ho hi
  | between => exact houter.nextOuter hinner hpair ho hi
  | within t =>
    have ht : T t := hcurrent t rfl
    have hfind : SamePull Q V E (inner'.find (Source.paired holds t) i')
        (inner.find (Source.paired holds t) i) := hinner.paired hpair ht hi
    simp only [Source.pullJoin]
    cases hrun : inner.find (Source.paired holds t) i with
    | mk answer i₁ =>
      rw [hrun] at hfind
      cases answer with
      | tuple u =>
        obtain ⟨i₁', hrun', hu, hi₁⟩ := hfind.of_tuple
        rw [hrun']
        exact .tuple hu (.within ho hi₁ ht)
      | exhausted =>
        obtain ⟨i₁', hrun', hi₁⟩ := hfind.of_exhausted
        rw [hrun']
        exact houter.nextOuter hinner hpair ho hi₁
      | failed e =>
        obtain ⟨i₁', hrun', he, hi₁⟩ := hfind.of_failed
        rw [hrun']
        exact .failed he (.within ho hi₁ ht)

theorem Lockstep.resetJoin (houter : outer'.Lockstep outer R T E)
    (hinner : inner'.Lockstep inner Q U E) {x : JoinState σ' τ'} {y : JoinState σ τ}
    (h : SameLoop R Q T x y) :
    SameReset (SameLoop R Q T) E (Source.resetJoin outer' inner' x)
      (Source.resetJoin outer inner y) := by
  simp only [Source.resetJoin]
  cases hreset : outer.reset y.outer with
  | mk outcome o =>
    cases outcome with
    | error e =>
      obtain ⟨o', hreset', he, ho⟩ := SameReset.of_error (hreset ▸ houter.reset h.outer)
      rw [hreset']
      exact .error he ⟨ho, h.inner, h.phase, h.current⟩
    | ok =>
      obtain ⟨o', hreset', ho⟩ := SameReset.of_ok (hreset ▸ houter.reset h.outer)
      rw [hreset']
      cases hagain : inner.reset y.inner with
      | mk outcome i =>
        cases outcome with
        | error e =>
          obtain ⟨i', hagain', he, hi⟩ := SameReset.of_error (hagain ▸ hinner.reset h.inner)
          rw [hagain']
          exact .error he ⟨ho, hi, h.phase, h.current⟩
        | ok =>
          obtain ⟨i', hagain', hi⟩ := SameReset.of_ok (hagain ▸ hinner.reset h.inner)
          rw [hagain']
          exact .ok ⟨ho, hi, rfl, nofun⟩

theorem Lockstep.join (houter : outer'.Lockstep outer R T E) (hinner : inner'.Lockstep inner Q U E)
    (hpair : ∀ t u, T t → U u → V (t ++ u)) (holds : Tuple → Tuple → Bool) :
    (outer'.join inner' holds).Lockstep (outer.join inner holds) (SameLoop R Q T) V E :=
  ⟨houter.pullJoin hinner hpair, houter.resetJoin hinner⟩

end Join

/-! ## Sums -/

section Sum

variable {src' : Source σ'} {src : Source σ}

/-- The states of two sums: what is below is related, and the results that are left are the same,
and allowed. -/
structure SameResults (R : σ' → σ → Prop) (U : Tuple → Prop)
    (x : σ' × Option (List Tuple)) (y : σ × Option (List Tuple)) : Prop where
  below : R x.1 y.1
  results : x.2 = y.2
  allowed : ∀ ts, y.2 = some ts → ∀ t ∈ ts, U t

theorem SameResults.deliver {s' : σ'} {s : σ} {ts : List Tuple} (hs : R s' s)
    (hts : ∀ t ∈ ts, U t) :
    SamePull (SameResults R U) U E (Source.deliver s' ts) (Source.deliver s ts) := by
  cases ts with
  | nil => exact .exhausted ⟨hs, rfl, by simp⟩
  | cons t rest =>
    obtain ⟨ht, hrest⟩ := List.forall_mem_cons.mp hts
    refine .tuple ht ⟨hs, rfl, fun us hus => ?_⟩
    cases hus
    exact hrest

/-- What holds of the totals at first, and is kept whenever a tuple is taken in, holds when the
results are made of them. -/
theorem Lockstep.sum (h : src'.Lockstep src R T E) {spec : SumSpec} {I : SumSpec.Totals → Prop}
    (hinitial : I spec.initial)
    (hkeep : ∀ totals t, I totals → T t → I (spec.accept totals t).1)
    (hrefuse : ∀ totals t e, I totals → T t → (spec.accept totals t).2 = some e → E e)
    (hresults : ∀ totals, I totals → ∀ t ∈ SumSpec.results totals, U t) :
    (src'.sum spec).Lockstep (src.sum spec) (SameResults R U) U E := by
  constructor
  case pull =>
    rintro ⟨s', left⟩ ⟨s, _⟩ ⟨hs, hleft, hallowed⟩
    cases hleft
    cases left with
    | some ts => exact SameResults.deliver hs (hallowed ts rfl)
    | none =>
      obtain ⟨hsame, hI, hE, hend⟩ := h.drain (fun e he => he) hkeep hrefuse hinitial hs
      simp only [Source.sum]
      generalize src'.drain spec.accept spec.initial s' = x' at hsame hend ⊢
      generalize src.drain spec.accept spec.initial s = x at hsame hI hE hend ⊢
      obtain ⟨outcome', s₁'⟩ := x'
      obtain ⟨⟨totals, error?⟩, s₁⟩ := x
      cases hsame
      cases error? with
      | none => exact SameResults.deliver hend (hresults totals hI)
      | some e => exact .failed (hE e rfl) ⟨hend, rfl, by simp⟩
  case reset =>
    intro x y h'
    exact (h.reset h'.below).keep (Q := SameResults R U) (g := (·, none)) (f := (·, none))
      fun hs => ⟨hs, rfl, by simp⟩

end Sum

end Source

end Conjunct
