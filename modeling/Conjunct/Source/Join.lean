import Conjunct.Source

/-!
# Joins

A nested loop: for each tuple of an outer source, the tuples of an inner source that match it, in
order. The inner source is reset before it is run through again, but not before its first run.

A state remembers where in the loop it is. If the inner source cannot be reset, the outer tuple
that asked for the reset stays the current one.
-/

namespace Conjunct

/-- Where a nested loop stands. -/
inductive JoinPhase where
  /-- The inner source is as it was after its last reset. -/
  | fresh
  /-- A run of the inner source is over. -/
  | between
  /-- The inner source is being run through for an outer tuple. -/
  | within (outer : Tuple)

/-- A state of a join. -/
structure JoinState (σ τ : Type) where
  outer : σ
  inner : τ
  phase : JoinPhase

namespace Source

variable {σ τ : Type}

/-- The pair of two tuples, if they match. -/
def paired (holds : Tuple → Tuple → Bool) (t u : Tuple) : Except EvalError (Option Tuple) :=
  .ok (if holds t u then some (t ++ u) else none)

/-- Make the inner source ready for a run. -/
def rewind (inner : Source τ) (used : Bool) (i : τ) : Except EvalError Unit × τ :=
  if used then inner.reset i else (.ok (), i)

/-- Go on with the next outer tuple. `used` says whether the inner source has been pulled since
its last reset. -/
def nextOuter (outer : Source σ) (inner : Source τ) (holds : Tuple → Tuple → Bool) (used : Bool)
    (o : σ) (i : τ) : Pull × JoinState σ τ :=
  let resting : JoinPhase := if used then .between else .fresh
  match _h : outer.pull o with
  | (.exhausted, o') => (.exhausted, ⟨o', i, resting⟩)
  | (.failed e, o') => (.failed e, ⟨o', i, resting⟩)
  | (.tuple t, o') =>
    match inner.rewind used i with
    | (.error e, i') => (.failed e, ⟨o', i', .within t⟩)
    | (.ok (), i') =>
      match inner.find (paired holds t) i' with
      | (.tuple u, i'') => (.tuple u, ⟨o', i'', .within t⟩)
      | (.failed e, i'') => (.failed e, ⟨o', i'', .within t⟩)
      | (.exhausted, i'') => nextOuter outer inner holds true o' i''
termination_by outer.size o
decreasing_by exact outer.size_pull _h

/-- A bound for the number of pairs that are still to come: a run of the inner source for each
outer tuple, where the current run is already under way. -/
def joinSize (outer : Source σ) (inner : Source τ) (s : JoinState σ τ) : Nat :=
  match s.phase with
  | .fresh => outer.size s.outer * max inner.capacity (inner.size s.inner)
  | .between => outer.size s.outer * inner.capacity
  | .within _ => outer.size s.outer * inner.capacity + inner.size s.inner

theorem size_nextOuter {outer : Source σ} {inner : Source τ} {holds : Tuple → Tuple → Bool}
    {used : Bool} {o : σ} {i : τ} {t : Tuple} {s : JoinState σ τ}
    (h : nextOuter outer inner holds used o i = (.tuple t, s)) :
    joinSize outer inner s <
      outer.size o * if used then inner.capacity else max inner.capacity (inner.size i) := by
  fun_induction nextOuter outer inner holds used o i with
  | case1 => simp at h
  | case2 => simp at h
  | case3 => simp at h
  | case4 used o i t₀ o' hpull i' hready u i'' hfind =>
    obtain ⟨_, rfl⟩ := Prod.mk.inj h
    have hout := outer.size_pull hpull
    have hin := inner.size_find hfind
    have hbound : inner.size i' ≤
        if used then inner.capacity else max inner.capacity (inner.size i) := by
      unfold rewind at hready
      split at hready
      · next hused => simpa [hused] using inner.size_reset hready
      · next hused =>
        cases hready
        rw [if_neg hused]
        exact Nat.le_max_right _ _
    have hcap : inner.capacity ≤
        if used then inner.capacity else max inner.capacity (inner.size i) := by
      split
      · exact Nat.le_refl _
      · exact Nat.le_max_left _ _
    generalize (if used then inner.capacity else max inner.capacity (inner.size i)) = m at *
    calc outer.size o' * inner.capacity + inner.size i''
        < outer.size o' * inner.capacity + inner.size i' := Nat.add_lt_add_left hin _
      _ ≤ outer.size o' * m + m := Nat.add_le_add (Nat.mul_le_mul_left _ hcap) hbound
      _ = (outer.size o' + 1) * m := (Nat.succ_mul _ _).symm
      _ ≤ outer.size o * m := Nat.mul_le_mul_right _ hout
  | case5 => simp at h
  | case6 used o i t₀ o' hpull i' hready i'' hfind ih =>
    refine Nat.lt_of_lt_of_le (ih h) (Nat.mul_le_mul (Nat.le_of_lt (outer.size_pull hpull)) ?_)
    simp only [if_true]
    split
    · exact Nat.le_refl _
    · exact Nat.le_max_left _ _

/-- Ask a join for its next pair. -/
def pullJoin (outer : Source σ) (inner : Source τ) (holds : Tuple → Tuple → Bool)
    (s : JoinState σ τ) : Pull × JoinState σ τ :=
  match s.phase with
  | .fresh => nextOuter outer inner holds false s.outer s.inner
  | .between => nextOuter outer inner holds true s.outer s.inner
  | .within t =>
    match inner.find (paired holds t) s.inner with
    | (.tuple u, i) => (.tuple u, ⟨s.outer, i, .within t⟩)
    | (.failed e, i) => (.failed e, ⟨s.outer, i, .within t⟩)
    | (.exhausted, i) => nextOuter outer inner holds true s.outer i

/-- Start a join again: the outer source first, then the inner one. -/
def resetJoin (outer : Source σ) (inner : Source τ) (s : JoinState σ τ) :
    Except EvalError Unit × JoinState σ τ :=
  match outer.reset s.outer with
  | (.error e, o) => (.error e, { s with outer := o })
  | (.ok (), o) =>
    match inner.reset s.inner with
    | (.error e, i) => (.error e, { s with outer := o, inner := i })
    | (.ok (), i) => (.ok (), ⟨o, i, .fresh⟩)

/-- The pairs of matching tuples of two sources. -/
def join (outer : Source σ) (inner : Source τ) (holds : Tuple → Tuple → Bool) :
    Source (JoinState σ τ) where
  pull := pullJoin outer inner holds
  reset := resetJoin outer inner
  size := joinSize outer inner
  capacity := outer.capacity * inner.capacity
  size_pull := by
    intro ⟨o, i, phase⟩ t s' h
    cases phase with
    | fresh => exact size_nextOuter h
    | between => exact size_nextOuter h
    | within u =>
      dsimp only [pullJoin] at h
      split at h
      · next hfind =>
        obtain ⟨_, rfl⟩ := Prod.mk.inj h
        exact Nat.add_lt_add_left (inner.size_find hfind) _
      · cases h
      · exact Nat.lt_of_lt_of_le (size_nextOuter h) (Nat.le_add_right _ _)
  size_reset := by
    intro s s' h
    unfold resetJoin at h
    split at h
    · cases h
    · next o houter =>
      split at h
      · cases h
      · next i hinner =>
        cases h
        have hin := inner.size_reset hinner
        have hmax : max inner.capacity (inner.size i) = inner.capacity := by omega
        simpa [joinSize, hmax] using Nat.mul_le_mul_right _ (outer.size_reset houter)

end Source

end Conjunct
