import Conjunct.Source.Filter
import Conjunct.Source.Join
import Conjunct.Source.Scan
import Conjunct.Source.Sum

/-!
# What a source yields

A source that is pulled to its end yields a list of tuples, and perhaps an error that cuts the list
short. This is its *yield* (`Source.yields`), and collecting the tuples of a source shows no more
of it than this.

The yield of every operator is a function of the yields of the sources below it: the operators
of this module say which (`Yield.filter`, `Yield.join`, and so on). A source below a join is
run through many times, so what has to be known of it is that it *replays* its yield: that it
yields the same from the start and after every reset.

Main results: `replays_scan`, `replays_filter`, `replays_join`, `replays_distinct` and
`replays_sum`.
-/

namespace Conjunct

/-- The tuples that a source yields, and the error that ends them, if one does. -/
structure Yield where
  tuples : List Tuple
  error? : Option EvalError
  deriving DecidableEq

namespace Yield

/-! ## Operations on yields -/

/-- No tuples and an error. -/
def failed (e : EvalError) : Yield :=
  ⟨[], some e⟩

/-- One tuple more at the front. -/
def cons (t : Tuple) (o : Yield) : Yield :=
  ⟨t :: o.tuples, o.error?⟩

/-- One yield after another, which an error of the first cuts off. -/
def andThen (first second : Yield) : Yield :=
  match first.error? with
  | none => ⟨first.tuples ++ second.tuples, second.error?⟩
  | some _ => first

/-- The accepted tuples. -/
def filter (accepts : Tuple → Bool) (o : Yield) : Yield :=
  ⟨o.tuples.filter accepts, o.error?⟩

/-- The tuples that match an outer tuple, each behind it. -/
def pairedWith (holds : Tuple → Tuple → Bool) (t : Tuple) (inner : Yield) : Yield :=
  ⟨(inner.tuples.filter (holds t)).map (t ++ ·), inner.error?⟩

/-- The matching pairs: for each outer tuple in turn the whole inner yield. -/
def join (holds : Tuple → Tuple → Bool) (outer inner : Yield) : Yield :=
  outer.tuples.foldr (fun t rest => (inner.pairedWith holds t).andThen rest) ⟨[], outer.error?⟩

/-- The projections of the tuples that are new, where some have been seen before. -/
def distinctFrom (positions : List Nat) (error? : Option EvalError) :
    List Tuple → List Tuple → Yield
  | _, [] => ⟨[], error?⟩
  | seen, t :: rest =>
    match Source.unseen positions seen t with
    | .error e => failed e
    | .ok none => distinctFrom positions error? seen rest
    | .ok (some u) => cons u (distinctFrom positions error? (u :: seen) rest)

/-- The projections of the tuples, each at its first occurrence. -/
def distinct (positions : List Nat) (o : Yield) : Yield :=
  distinctFrom positions o.error? [] o.tuples

/-- Pass tuples on, up to the first that is refused. -/
def feed {β : Type} (accept : β → Tuple → β × Option EvalError) :
    β → List Tuple → β × Option EvalError
  | b, [] => (b, none)
  | b, t :: rest =>
    match accept b t with
    | (b', none) => feed accept b' rest
    | (b', some e) => (b', some e)

/-- Pass all tuples on, and then the error. -/
def drain {β : Type} (accept : β → Tuple → β × Option EvalError) (b : β) (o : Yield) :
    β × Option EvalError :=
  match feed accept b o.tuples with
  | (b', none) => (b', o.error?)
  | (b', some e) => (b', some e)

/-- The sums over the tuples, if nothing fails. -/
def sum (spec : SumSpec) (o : Yield) : Yield :=
  match o.drain spec.accept spec.initial with
  | (totals, none) => ⟨SumSpec.results totals, none⟩
  | (_, some e) => failed e

/-- The tuples that the lines of a relation's file stand for, up to the first line that cannot be
read or decoded. -/
def ofLines (relation : Relation) (path : Path) (row : Nat) : List Line → Yield
  | [] => ⟨[], none⟩
  | .undecodable :: _ => failed (.relationUnavailable path StorageError.notUtf8.message)
  | .text line :: rest =>
    if line.all Text.isBlank then ofLines relation path (row + 1) rest
    else
      match relation.decode (row + 1) line with
      | .ok t => cons t (ofLines relation path (row + 1) rest)
      | .error e => failed e

/-- Without an error below, a join is a nested loop over two lists. -/
theorem join_eq_flatMap (holds : Tuple → Tuple → Bool) (outer inner : Yield)
    (hinner : inner.error? = none) :
    join holds outer inner =
      ⟨outer.tuples.flatMap fun t => (inner.tuples.filter (holds t)).map (t ++ ·),
        outer.error?⟩ := by
  unfold join
  generalize outer.error? = e
  induction outer.tuples with
  | nil => rfl
  | cons t ts ih =>
    rw [List.foldr_cons, ih]
    simp [andThen, pairedWith, hinner]

theorem distinctFrom_eq_eraseDups {positions : List Nat} (error? : Option EvalError)
    {ts : List Tuple} {f : Tuple → Tuple} (hf : ∀ t ∈ ts, t.project? positions = some (f t))
    (seen : List Tuple) :
    distinctFrom positions error? seen ts =
      ⟨((ts.map f).filter (· ∉ seen)).eraseDups, error?⟩ := by
  induction ts generalizing seen with
  | nil => rfl
  | cons t ts ih =>
    have htail := fun u hu => hf u (List.mem_cons_of_mem t hu)
    rw [distinctFrom, Source.unseen, hf t List.mem_cons_self]
    by_cases hseen : f t ∈ seen
    · simp only [if_pos hseen]
      rw [ih htail]
      simp [hseen]
    · simp only [if_neg hseen]
      rw [ih htail]
      simp only [cons, List.map_cons, List.filter_cons, hseen, not_false_eq_true, decide_true,
        if_true, List.eraseDups_cons, List.filter_filter]
      congr 3
      refine List.filter_congr fun u _ => ?_
      by_cases hu : u = f t <;> simp [hu]

/-- When every tuple has the positions, a projection keeps the first of equal results. -/
theorem distinct_eq_eraseDups {positions : List Nat} {o : Yield} {f : Tuple → Tuple}
    (hf : ∀ t ∈ o.tuples, t.project? positions = some (f t)) :
    o.distinct positions = ⟨(o.tuples.map f).eraseDups, o.error?⟩ := by
  rw [distinct, distinctFrom_eq_eraseDups o.error? hf, List.filter_eq_self.mpr (by simp)]

end Yield

namespace Source

variable {σ τ β : Type}

/-! ## The yield of a source -/

/-- What a source yields from a state on. -/
def yields (src : Source σ) (s : σ) : Yield :=
  match _h : src.pull s with
  | (.tuple t, s') => (src.yields s').cons t
  | (.exhausted, _) => ⟨[], none⟩
  | (.failed e, _) => .failed e
termination_by src.size s
decreasing_by exact src.size_pull _h

theorem yields_of_tuple {src : Source σ} {s s' : σ} {t : Tuple}
    (h : src.pull s = (.tuple t, s')) : src.yields s = (src.yields s').cons t := by
  rw [yields]
  split <;> simp_all

theorem yields_of_exhausted {src : Source σ} {s s' : σ} (h : src.pull s = (.exhausted, s')) :
    src.yields s = ⟨[], none⟩ := by
  rw [yields]
  split <;> simp_all

theorem yields_of_failed {src : Source σ} {s s' : σ} {e : EvalError}
    (h : src.pull s = (.failed e, s')) : src.yields s = .failed e := by
  rw [yields]
  split <;> simp_all

/-- States that answer alike yield alike. -/
theorem yields_congr {src : Source σ} {s s' : σ} (h : src.pull s = src.pull s') :
    src.yields s = src.yields s' := by
  cases hpull : src.pull s' with
  | mk answer next =>
    rw [hpull] at h
    cases answer with
    | tuple t => rw [yields_of_tuple h, yields_of_tuple hpull]
    | exhausted => rw [yields_of_exhausted h, yields_of_exhausted hpull]
    | failed e => rw [yields_of_failed h, yields_of_failed hpull]

/-! ## Steps of a run -/

section Drain

variable {src : Source σ} (accept : β → Tuple → β × Option EvalError) (b : β) {s s' : σ}

theorem drain_of_tuple {t : Tuple} (h : src.pull s = (.tuple t, s')) :
    src.drain accept b s =
      match accept b t with
      | (b', none) => src.drain accept b' s'
      | (b', some e) => ((b', some e), s') := by
  rw [drain]
  split
  · next hpull =>
    rw [h] at hpull
    cases hpull
    rfl
  · simp_all
  · simp_all

theorem drain_of_exhausted (h : src.pull s = (.exhausted, s')) :
    src.drain accept b s = ((b, none), s') := by
  rw [drain]
  split <;> simp_all

theorem drain_of_failed {e : EvalError} (h : src.pull s = (.failed e, s')) :
    src.drain accept b s = ((b, some e), s') := by
  rw [drain]
  split <;> simp_all

end Drain

/-- A run over a source passes on what the source yields. -/
theorem drain_eq_yields (src : Source σ) (accept : β → Tuple → β × Option EvalError) (b : β)
    (s : σ) : (src.drain accept b s).1 = (src.yields s).drain accept b := by
  fun_induction src.drain accept b s with
  | case1 b s t s' hpull b' haccept ih =>
    rw [ih, yields_of_tuple hpull]
    simp [Yield.cons, Yield.drain, Yield.feed, haccept]
  | case2 b s t s' hpull b' e haccept =>
    rw [yields_of_tuple hpull]
    simp [Yield.cons, Yield.drain, Yield.feed, haccept]
  | case3 b s s' hpull =>
    rw [yields_of_exhausted hpull]
    rfl
  | case4 b s e s' hpull =>
    rw [yields_of_failed hpull]
    rfl

/-- Collecting shows the yield. -/
theorem collect_eq_yields (src : Source σ) (s : σ) :
    (src.collect s).1 = ((src.yields s).tuples, (src.yields s).error?) := by
  have hfeed : ∀ ts acc : List Tuple,
      Yield.feed (fun ts t => (t :: ts, none)) acc ts = (ts.reverse ++ acc, none) := by
    intro ts
    induction ts with
    | nil => simp [Yield.feed]
    | cons t ts ih => simp [Yield.feed, ih]
  have hdrain := src.drain_eq_yields (fun ts t => (t :: ts, none)) [] s
  rw [Yield.drain, hfeed] at hdrain
  simp [collect, hdrain]

/-! ## Replaying -/

/-- From a state on, and after every reset, a source yields the same; and every reset succeeds. -/
structure Replays (src : Source σ) (s : σ) (o : Yield) : Prop where
  yields_eq : src.yields s = o
  again : ∀ s', ∃ s'', src.reset s' = (.ok (), s'') ∧ src.yields s'' = o

theorem yields_rows (ts us : List Tuple) : (rows ts).yields us = ⟨us, none⟩ := by
  induction us with
  | nil => exact yields_of_exhausted rfl
  | cons u us ih =>
    have hpull : (rows ts).pull (u :: us) = (.tuple u, us) := rfl
    rw [yields_of_tuple hpull, ih, Yield.cons]

theorem replays_rows (ts : List Tuple) : (rows ts).Replays ts ⟨ts, none⟩ :=
  ⟨yields_rows ts ts, fun _ => ⟨ts, rfl, yields_rows ts ts⟩⟩

/-! ## Selections and projections -/

/-- One step of a search: what happens at the first tuple. -/
theorem find_of_tuple {src : Source σ} (choose : Tuple → Except EvalError (Option Tuple))
    {s s' : σ} {t : Tuple} (h : src.pull s = (.tuple t, s')) :
    src.find choose s =
      match choose t with
      | .error e => (.failed e, s')
      | .ok (some u) => (.tuple u, s')
      | .ok none => src.find choose s' := by
  rw [find]
  split
  · next hpull =>
    rw [h] at hpull
    cases hpull
    rfl
  · simp_all
  · simp_all

theorem find_of_exhausted {src : Source σ} (choose : Tuple → Except EvalError (Option Tuple))
    {s s' : σ} (h : src.pull s = (.exhausted, s')) : src.find choose s = (.exhausted, s') := by
  rw [find]
  split <;> simp_all

theorem find_of_failed {src : Source σ} (choose : Tuple → Except EvalError (Option Tuple))
    {s s' : σ} {e : EvalError} (h : src.pull s = (.failed e, s')) :
    src.find choose s = (.failed e, s') := by
  rw [find]
  split <;> simp_all

theorem yields_filter (src : Source σ) (accepts : Tuple → Bool) (s : σ) :
    (src.filter accepts).yields s = (src.yields s).filter accepts := by
  fun_induction src.yields s with
  | case1 s t s' hpull ih =>
    have hfind := find_of_tuple (fun t => .ok (if accepts t then some t else none)) hpull
    by_cases ht : accepts t
    · have hnext : (src.filter accepts).pull s = (.tuple t, s') := by
        rw [if_pos ht] at hfind
        exact hfind
      rw [yields_of_tuple hnext, ih]
      simp [Yield.cons, Yield.filter, ht]
    · -- A tuple that is passed over leaves no trace: the pull goes on as if from the next state.
      have hnext : (src.filter accepts).pull s = (src.filter accepts).pull s' := by
        rw [if_neg ht] at hfind
        exact hfind
      rw [yields_congr hnext, ih]
      simp [Yield.cons, Yield.filter, ht]
  | case2 s s' hpull =>
    have hnext : (src.filter accepts).pull s = (.exhausted, s') := find_of_exhausted _ hpull
    exact yields_of_exhausted hnext
  | case3 s e s' hpull =>
    have hnext : (src.filter accepts).pull s = (.failed e, s') := find_of_failed _ hpull
    exact yields_of_failed hnext

theorem replays_filter {src : Source σ} {s : σ} {o : Yield} (h : src.Replays s o)
    (accepts : Tuple → Bool) : (src.filter accepts).Replays s (o.filter accepts) := by
  refine ⟨by rw [yields_filter, h.yields_eq], fun s' => ?_⟩
  obtain ⟨s'', hreset, hyields⟩ := h.again s'
  exact ⟨s'', hreset, by rw [yields_filter, hyields]⟩

theorem yields_distinct (src : Source σ) (positions : List Nat) (s : σ) (seen : List Tuple) :
    (src.distinct positions).yields (s, seen) =
      Yield.distinctFrom positions (src.yields s).error? seen (src.yields s).tuples := by
  fun_induction src.yields s generalizing seen with
  | case1 s t s' hpull ih =>
    have hfind := find_of_tuple (unseen positions seen) hpull
    rw [Yield.cons, Yield.distinctFrom]
    cases hunseen : unseen positions seen t with
    | error e =>
      have hnext : (src.distinct positions).pull (s, seen) = (.failed e, (s', seen)) := by
        simp [distinct, hfind, hunseen]
      exact yields_of_failed hnext
    | ok new? =>
      cases new? with
      | none =>
        have hnext : (src.distinct positions).pull (s, seen) =
            (src.distinct positions).pull (s', seen) := by
          simp only [distinct, hfind, hunseen]
        rw [yields_congr hnext]
        exact ih seen
      | some u =>
        have hnext : (src.distinct positions).pull (s, seen) = (.tuple u, (s', u :: seen)) := by
          simp [distinct, hfind, hunseen]
        rw [yields_of_tuple hnext]
        exact congrArg (Yield.cons u) (ih (u :: seen))
  | case2 s s' hpull =>
    have hnext : (src.distinct positions).pull (s, seen) = (.exhausted, (s', seen)) := by
      simp [distinct, find_of_exhausted _ hpull]
    exact yields_of_exhausted hnext
  | case3 s e s' hpull =>
    have hnext : (src.distinct positions).pull (s, seen) = (.failed e, (s', seen)) := by
      simp [distinct, find_of_failed _ hpull]
    exact yields_of_failed hnext

theorem replays_distinct {src : Source σ} {s : σ} {o : Yield} (h : src.Replays s o)
    (positions : List Nat) : (src.distinct positions).Replays (s, []) (o.distinct positions) := by
  refine ⟨by rw [yields_distinct, h.yields_eq, Yield.distinct], fun state => ?_⟩
  obtain ⟨s', seen⟩ := state
  obtain ⟨s'', hreset, hyields⟩ := h.again s'
  exact ⟨(s'', []), by simp [distinct, hreset], by
    rw [yields_distinct, hyields, Yield.distinct]⟩

/-! ## Joins -/

section Join

variable {outer : Source σ} {inner : Source τ} {holds : Tuple → Tuple → Bool}

/-- Within a run of the inner source, a join yields the matches that are left and then goes on. -/
theorem yields_join_within {rest : Yield} {o : σ}
    (hrest : ∀ i, (outer.join inner holds).yields ⟨o, i, .between⟩ = rest) (t : Tuple) (i : τ) :
    (outer.join inner holds).yields ⟨o, i, .within t⟩ =
      ((inner.yields i).pairedWith holds t).andThen rest := by
  fun_induction inner.yields i with
  | case1 i u i' hpull ih =>
    have hfind := find_of_tuple (paired holds t) hpull
    by_cases hu : holds t u
    · have hnext : (outer.join inner holds).pull ⟨o, i, .within t⟩ =
          (.tuple (t ++ u), ⟨o, i', .within t⟩) := by
        simp [join, pullJoin, hfind, paired, hu]
      rw [yields_of_tuple hnext, ih]
      simp only [Yield.andThen, Yield.pairedWith, Yield.cons, List.filter_cons, hu, if_true]
      split <;> simp
    · have hnext : (outer.join inner holds).pull ⟨o, i, .within t⟩ =
          (outer.join inner holds).pull ⟨o, i', .within t⟩ := by
        simp only [paired, hu] at hfind
        simp [join, pullJoin, hfind]
      rw [yields_congr hnext, ih]
      simp [Yield.pairedWith, Yield.cons, hu]
  | case2 i i' hpull =>
    have hnext : (outer.join inner holds).pull ⟨o, i, .within t⟩ =
        (outer.join inner holds).pull ⟨o, i', .between⟩ := by
      simp [join, pullJoin, find_of_exhausted _ hpull]
    rw [yields_congr hnext, hrest]
    simp [Yield.andThen, Yield.pairedWith]
  | case3 i e i' hpull =>
    have hnext : (outer.join inner holds).pull ⟨o, i, .within t⟩ =
        (.failed e, ⟨o, i', .within t⟩) := by
      simp [join, pullJoin, find_of_failed _ hpull]
    exact yields_of_failed hnext

/-- Taking the next outer tuple brings a join into a run of the inner source. -/
theorem nextOuter_of_tuple {used : Bool} {o o' : σ} {i i' : τ} {t : Tuple}
    (hpull : outer.pull o = (.tuple t, o')) (hready : inner.rewind used i = (.ok (), i')) :
    nextOuter outer inner holds used o i = pullJoin outer inner holds ⟨o', i', .within t⟩ := by
  rw [nextOuter]
  split
  · simp_all
  · simp_all
  · next u o'' hpull' =>
    rw [hpull] at hpull'
    cases hpull'
    rw [hready]
    rfl

theorem nextOuter_of_exhausted {used : Bool} {o o' : σ} {i : τ}
    (hpull : outer.pull o = (.exhausted, o')) :
    nextOuter outer inner holds used o i =
      (.exhausted, ⟨o', i, if used then .between else .fresh⟩) := by
  rw [nextOuter]
  split <;> simp_all

theorem nextOuter_of_failed {used : Bool} {o o' : σ} {i : τ} {e : EvalError}
    (hpull : outer.pull o = (.failed e, o')) :
    nextOuter outer inner holds used o i =
      (.failed e, ⟨o', i, if used then .between else .fresh⟩) := by
  rw [nextOuter]
  split <;> simp_all

theorem yields_join_between {inn : Yield}
    (hinner : ∀ i, ∃ i', inner.reset i = (.ok (), i') ∧ inner.yields i' = inn) (o : σ) (i : τ) :
    (outer.join inner holds).yields ⟨o, i, .between⟩ =
      Yield.join holds (outer.yields o) inn := by
  fun_induction outer.yields o generalizing i with
  | case1 o t o' hpull ih =>
    obtain ⟨i', hreset, hyields⟩ := hinner i
    have hready : inner.rewind true i = (.ok (), i') := hreset
    have hnext : (outer.join inner holds).pull ⟨o, i, .between⟩ =
        (outer.join inner holds).pull ⟨o', i', .within t⟩ := nextOuter_of_tuple hpull hready
    rw [yields_congr hnext, yields_join_within ih, hyields]
    rfl
  | case2 o o' hpull =>
    have hnext : (outer.join inner holds).pull ⟨o, i, .between⟩ = (.exhausted, ⟨o', i, .between⟩) :=
      nextOuter_of_exhausted hpull
    exact yields_of_exhausted hnext
  | case3 o e o' hpull =>
    have hnext : (outer.join inner holds).pull ⟨o, i, .between⟩ = (.failed e, ⟨o', i, .between⟩) :=
      nextOuter_of_failed hpull
    exact yields_of_failed hnext

theorem yields_join_fresh {inn : Yield} {i : τ} (h : inner.Replays i inn) (o : σ) :
    (outer.join inner holds).yields ⟨o, i, .fresh⟩ = Yield.join holds (outer.yields o) inn := by
  have hbetween : ∀ o' i, (outer.join inner holds).yields ⟨o', i, .between⟩ =
      Yield.join holds (outer.yields o') inn := yields_join_between h.again
  cases hpull : outer.pull o with
  | mk answer o' =>
    cases answer with
    | tuple t =>
      have hready : inner.rewind false i = (.ok (), i) := rfl
      have hnext : (outer.join inner holds).pull ⟨o, i, .fresh⟩ =
          (outer.join inner holds).pull ⟨o', i, .within t⟩ := nextOuter_of_tuple hpull hready
      rw [yields_congr hnext, yields_join_within (hbetween o'), h.yields_eq, yields_of_tuple hpull]
      rfl
    | exhausted =>
      have hnext : (outer.join inner holds).pull ⟨o, i, .fresh⟩ = (.exhausted, ⟨o', i, .fresh⟩) :=
        nextOuter_of_exhausted hpull
      rw [yields_of_exhausted hpull]
      exact yields_of_exhausted hnext
    | failed e =>
      have hnext : (outer.join inner holds).pull ⟨o, i, .fresh⟩ = (.failed e, ⟨o', i, .fresh⟩) :=
        nextOuter_of_failed hpull
      rw [yields_of_failed hpull]
      exact yields_of_failed hnext

theorem replays_join {o : σ} {i : τ} {out inn : Yield} (houter : outer.Replays o out)
    (hinner : inner.Replays i inn) (holds : Tuple → Tuple → Bool) :
    (outer.join inner holds).Replays ⟨o, i, .fresh⟩ (Yield.join holds out inn) := by
  refine ⟨by rw [yields_join_fresh hinner, houter.yields_eq], fun s => ?_⟩
  obtain ⟨o', horeset, hoyields⟩ := houter.again s.outer
  obtain ⟨i', hireset, hiyields⟩ := hinner.again s.inner
  refine ⟨⟨o', i', .fresh⟩, by simp [join, resetJoin, horeset, hireset], ?_⟩
  rw [yields_join_fresh ⟨hiyields, hinner.again⟩, hoyields]

end Join

/-! ## Sums -/

theorem yields_sum_some (src : Source σ) (spec : SumSpec) (s : σ) (results : List Tuple) :
    (src.sum spec).yields (s, some results) = ⟨results, none⟩ := by
  induction results with
  | nil => exact yields_of_exhausted rfl
  | cons t rest ih =>
    have hpull : (src.sum spec).pull (s, some (t :: rest)) = (.tuple t, (s, some rest)) := rfl
    rw [yields_of_tuple hpull, ih, Yield.cons]

theorem yields_sum (src : Source σ) (spec : SumSpec) (s : σ) :
    (src.sum spec).yields (s, none) = (src.yields s).sum spec := by
  have hdrain := src.drain_eq_yields spec.accept spec.initial s
  cases hrun : src.drain spec.accept spec.initial s with
  | mk answer s' =>
    obtain ⟨totals, error?⟩ := answer
    rw [hrun] at hdrain
    rw [Yield.sum, ← hdrain]
    cases error? with
    | none =>
      have hpull : (src.sum spec).pull (s, none) =
          (src.sum spec).pull (s', some (SumSpec.results totals)) := by
        simp [sum, hrun]
      rw [yields_congr hpull, yields_sum_some]
    | some e =>
      have hpull : (src.sum spec).pull (s, none) = (.failed e, (s', none)) := by
        simp [sum, hrun]
      exact yields_of_failed hpull

theorem replays_sum {src : Source σ} {s : σ} {o : Yield} (h : src.Replays s o)
    (spec : SumSpec) : (src.sum spec).Replays (s, none) (o.sum spec) := by
  refine ⟨by rw [yields_sum, h.yields_eq], fun state => ?_⟩
  obtain ⟨s', results⟩ := state
  obtain ⟨s'', hreset, hyields⟩ := h.again s'
  exact ⟨(s'', none), by simp [sum, hreset], by rw [yields_sum, hyields]⟩

/-! ## Scans -/

theorem yields_scan_lines (store : Storage) (relation : Relation) (path : Path)
    (lines : List Line) (row : Nat) :
    (scan store relation path).yields ⟨.lines lines, row⟩ =
      .ofLines relation path row lines := by
  fun_induction Yield.ofLines relation path row lines with
  | case1 row => exact yields_of_exhausted rfl
  | case2 row rest => exact yields_of_failed rfl
  | case3 row line rest hblank ih =>
    rw [← ih]
    refine yields_congr ?_
    simp [scan, Storage.Reader.pending, scanLines, hblank]
  | case4 row line rest hblank t hdecode ih =>
    rw [← ih]
    refine yields_of_tuple ?_
    simp [scan, Storage.Reader.pending, scanLines, hblank, hdecode]
  | case5 row line rest hblank e hdecode =>
    have hpull : (scan store relation path).pull ⟨.lines (.text line :: rest), row⟩ =
        (.failed e, ⟨.lines rest, row + 1⟩) := by
      simp [scan, Storage.Reader.pending, scanLines, hblank, hdecode]
    exact yields_of_failed hpull

/-- A scan that could be opened replays the lines that its file holds. -/
theorem replays_scan {store : Storage} (relation : Relation) {path : Path} {s : ScanState}
    (hopen : openScan store path = .ok s) :
    (scan store relation path).Replays s
      (match s.reader.pending store with
        | .ok lines => .ofLines relation path 0 lines
        | .error e => .failed (.relationUnavailable path e.message)) := by
  have hrow : s.row = 0 := by
    unfold openScan at hopen
    split at hopen <;> cases hopen
    rfl
  have hyields : (scan store relation path).yields s =
      (match s.reader.pending store with
        | .ok lines => .ofLines relation path 0 lines
        | .error e => .failed (.relationUnavailable path e.message)) := by
    cases hlines : s.reader.pending store with
    | error e =>
      have hpull : (scan store relation path).pull s =
          (.failed (.relationUnavailable path e.message), s) := by simp [scan, hlines]
      exact yields_of_failed hpull
    | ok lines =>
      dsimp only
      have hread : Storage.Reader.pending store (.lines lines) = .ok lines := rfl
      rw [← yields_scan_lines, ← hrow]
      exact yields_congr (by simp [scan, hlines, hread])
  exact ⟨hyields, fun s' => ⟨s, by simp [scan, hopen], hyields⟩⟩

end Source

end Conjunct
