import Conjunct.Proofs.Overflow
import Conjunct.Proofs.Refinement

/-!
# What a failed sum leaves over

The first pull of a sum takes in all tuples below it. If that fails halfway, on an error from below
or on a tuple that cannot be taken in, the tuples taken in so far are lost: the next pull starts
from nothing, with the tuples that are left over.

**Theorem (`Source.tuple_of_sum`).** Let a sum be pulled any number of times, whatever the answers.
Failures come first if there are any. Then every tuple that the sum hands out is the total of a
group over the last tuples of the pass below it, those after the tuples that failed pulls have lost.
It is the total over the whole pass exactly if there is such a total, and what has been lost adds
nothing to it. Without a failed pull nothing is lost.

The invariant of the pulls (`Source.SumStage`) says which part of the pass is lost, and once the
totals are there, that they are of the other part.
-/

namespace Conjunct

/-! ## The total over some tuples -/

namespace Yield

theorem of_drain {β : Type} {accept : β → Tuple → β × Option EvalError} {b b' : β} {o : Yield}
    (h : o.drain accept b = (b', none)) :
    o.error? = none ∧ feed accept b o.tuples = (b', none) := by
  unfold drain at h
  split at h
  · next b₁ hfeed =>
    obtain ⟨rfl, herror⟩ := Prod.mk.inj h
    exact ⟨herror, hfeed⟩
  · cases h

theorem error?_sum_of_mem {spec : SumSpec} {o : Yield} {u : Tuple} (h : u ∈ (o.sum spec).tuples) :
    (o.sum spec).error? = none := by
  unfold sum at h ⊢
  split at h
  · rfl
  · cases h

end Yield

theorem Tuple.exists_of_project? {t u : Tuple} {positions : List Nat}
    (h : t.project? positions = some u) : ∀ i ∈ positions, ∃ c, t[i]? = some c := by
  unfold project? at h
  induction positions generalizing u with
  | nil => simp
  | cons i positions ih =>
    rw [List.mapM_cons] at h
    obtain ⟨c, hc, h⟩ := Option.bind_eq_some_iff.mp h
    obtain ⟨rest, hrest, -⟩ := Option.bind_eq_some_iff.mp h
    exact List.forall_mem_cons.mpr ⟨⟨c, hc⟩, ih hrest⟩

theorem SumSpec.exists_factorValue_of_product {spec : SumSpec} {t : Tuple} {n : Integer}
    (h : spec.product t = .ok n) : ∀ f ∈ spec.factors, ∃ m, spec.factorValue t f = .ok m := by
  unfold product at h
  generalize (1 : Integer) = p at h
  generalize spec.factors = fs at h
  induction fs generalizing p with
  | nil => simp
  | cons f fs ih =>
    rw [List.foldlM_cons] at h
    obtain ⟨p', hmultiply, hrest⟩ := exists_of_bind_eq_ok h
    obtain ⟨m, hm, -⟩ := of_multiply hmultiply
    exact List.forall_mem_cons.mpr ⟨⟨m, hm⟩, ih p' hrest⟩

section Totals

variable {schema : Atom} {outputs : List Variable} {s : Aggregate} {spec : SumSpec}

theorem Aggregate.total_append (s : Aggregate) (outputs : List Variable) (νs μs : List Valuation)
    (group : Tuple) :
    s.total outputs (νs ++ μs) group = s.total outputs νs group + s.total outputs μs group := by
  simp [total]

theorem mem_groups_append_right {νs μs : List Valuation} {group : Tuple}
    (h : group ∈ groups outputs μs) : group ∈ groups outputs (νs ++ μs) := by
  unfold groups at h ⊢
  split
  · next hnil => rwa [if_pos hnil] at h
  · next hne =>
    rw [if_neg hne, List.mem_eraseDups] at h
    rw [List.mem_eraseDups, List.map_append]
    exact List.mem_append_right _ h

/-- A tuple that is taken in has fields for the variables of the sum. -/
theorem gives_of_accept (h : Plan.resolveSum schema outputs s = .ok spec)
    {totals totals' : SumSpec.Totals} {t : Tuple} (haccept : spec.accept totals t = (totals', none)) :
    schema.Gives (outputs ++ s.vars) t (schema.read t) := by
  obtain ⟨-, hgroup, hfactors⟩ := Machine.of_resolveSum h
  obtain ⟨⟨n, hproduct⟩, key, hproject⟩ := SumSpec.of_accept haccept
  have hread : ∀ {v : Variable} {i : Nat} {c : Constant}, schema.position? v = some i →
      t[i]? = some c → schema.field? t v = some (schema.read t v) := by
    intro v i c hi hc
    simp [Atom.field?, Atom.read, hi, hc]
  intro v hv
  rcases List.mem_append.mp hv with hv | hv
  · obtain ⟨p, hp, hlocate⟩ := exists_mem_of_mapM hgroup v hv
    obtain ⟨c, hc⟩ := Tuple.exists_of_project? hproject p.2 (List.mem_map_of_mem hp)
    exact hread (Plan.position?_of_locate hlocate).2 hc
  · obtain ⟨f, hf, hresolve⟩ := exists_mem_of_mapM hfactors _ (Term.mem_variablesOf.mp hv)
    obtain ⟨p, hlocate, rfl⟩ := exists_of_map_eq_ok hresolve
    obtain ⟨m, hm⟩ := SumSpec.exists_factorValue_of_product hproduct _ hf
    rw [SumSpec.factorValue] at hm
    split at hm
    · next hc => exact hread (Plan.position?_of_locate hlocate).2 hc
    · cases hm
    · cases hm

/-- If a sum comes to results, these are the totals over what the tuples give the variables. -/
theorem sum_of_error?_eq_none (h : Plan.resolveSum schema outputs s = .ok spec) {ts : List Tuple}
    (hok : (Yield.sum spec ⟨ts, none⟩).error? = none) :
    (Yield.sum spec ⟨ts, none⟩).tuples = s.rows outputs (ts.map schema.read) ∧
      Fits outputs s (ts.map schema.read) := by
  obtain ⟨totals, hfeed⟩ := Yield.error?_sum_eq_none_iff.mp hok
  have hrows : List.Forall₂ (schema.Gives (outputs ++ s.vars)) ts (ts.map schema.read) := by
    rw [List.forall₂_map_right_iff, List.forall₂_same]
    intro t ht
    obtain ⟨before, after, haccept⟩ := Yield.exists_accept_of_feed hfeed t ht
    exact gives_of_accept h haccept
  have hsum := yield_sum_of_gives h hrows
  rcases yield_sum (resolves_of_resolveSum h) (ts.map schema.read) with ⟨hresults, hfits⟩ | hfailed
  · rw [hsum, hresults, results_tally]
    exact ⟨rfl, hfits⟩
  · obtain ⟨e, hfailed, -⟩ := hfailed
    rw [hsum, hfailed] at hok
    cases hok

/-- The total over some tuples is also the total over more tuples if these have a total and those
that come first add nothing to it. -/
theorem mem_sum_append_iff (h : Plan.resolveSum schema outputs s = .ok spec)
    {lost rows : List Tuple} {group : Tuple} {n : Integer}
    (hgroup : group ∈ groups outputs (rows.map schema.read))
    (hn : n.toInt = s.total outputs (rows.map schema.read) group) :
    group ++ [.integer n] ∈ (Yield.sum spec ⟨lost ++ rows, none⟩).tuples ↔
      (Yield.sum spec ⟨lost ++ rows, none⟩).error? = none ∧
        s.total outputs (lost.map schema.read) group = 0 := by
  constructor
  · intro hwhole
    have hok := Yield.error?_sum_of_mem hwhole
    obtain ⟨htuples, hfits⟩ := sum_of_error?_eq_none h hok
    rw [htuples] at hwhole
    obtain ⟨group', hgroup', heq⟩ := List.mem_map.mp hwhole
    obtain ⟨rfl, hlast⟩ := List.append_inj' heq rfl
    have htotal := Integer.toInt_ofInt (hfits.inRange group' hgroup')
    rw [Constant.integer.inj (List.singleton_inj.mp hlast), hn, List.map_append,
      Aggregate.total_append] at htotal
    exact ⟨hok, by omega⟩
  · rintro ⟨hok, hzero⟩
    obtain ⟨htuples, -⟩ := sum_of_error?_eq_none h hok
    rw [htuples, List.map_append]
    refine List.mem_map.mpr ⟨group, mem_groups_append_right hgroup, ?_⟩
    rw [Aggregate.total_append, hzero, Int.zero_add, ← hn, Int64.ofInt_toInt]

end Totals

namespace Source

variable {σ : Type} {src : Source σ}

/-! ## Passes -/

/-- Pulls lead from one state to another, and hand out tuples on the way. Errors are passed over. -/
inductive Reaches (src : Source σ) : σ → List Tuple → σ → Prop
  | refl (s : σ) : Reaches src s [] s
  | tuple {s s' last : σ} {t : Tuple} {ts : List Tuple} (h : src.pull s = (.tuple t, s'))
      (hrest : Reaches src s' ts last) : Reaches src s (t :: ts) last
  | failed {s s' last : σ} {e : EvalError} {ts : List Tuple} (h : src.pull s = (.failed e, s'))
      (hrest : Reaches src s' ts last) : Reaches src s ts last

/-- The tuples that a source hands out from a state on until it is exhausted. Errors are passed
over. -/
def Pass (src : Source σ) (s : σ) (ts : List Tuple) : Prop :=
  ∃ last, src.Reaches s ts last ∧ (src.pull last).1 = .exhausted

theorem Reaches.trans {s s' s'' : σ} {ts us : List Tuple} (h : src.Reaches s ts s')
    (h' : src.Reaches s' us s'') : src.Reaches s (ts ++ us) s'' := by
  induction h with
  | refl s => exact h'
  | tuple hpull _ ih => exact .tuple hpull (ih h')
  | failed hpull _ ih => exact .failed hpull (ih h')

/-- There is only one pass. -/
theorem Pass.unique {s : σ} {ts us : List Tuple} (h : src.Pass s ts) (h' : src.Pass s us) :
    ts = us := by
  obtain ⟨last, hreach, hlast⟩ := h
  obtain ⟨last', hreach', hlast'⟩ := h'
  induction hreach generalizing us with
  | refl s =>
    cases hreach' with
    | refl => rfl
    | tuple hpull | failed hpull =>
      rw [hpull] at hlast
      cases hlast
  | @tuple s s' last t ts hpull _ ih =>
    cases hreach' with
    | refl =>
      rw [hpull] at hlast'
      cases hlast'
    | tuple hpull' hrest =>
      cases hpull.symm.trans hpull'
      rw [ih hlast hrest]
    | failed hpull' => cases hpull.symm.trans hpull'
  | failed hpull _ ih =>
    cases hreach' with
    | refl =>
      rw [hpull] at hlast'
      cases hlast'
    | tuple hpull' => cases hpull.symm.trans hpull'
    | failed hpull' hrest =>
      cases hpull.symm.trans hpull'
      exact ih hlast hrest

/-- A yield without an error is a pass. -/
theorem pass_of_yields {s : σ} {ts : List Tuple} (h : src.yields s = ⟨ts, none⟩) :
    src.Pass s ts := by
  fun_induction src.yields s generalizing ts with
  | case1 s t s' hpull ih =>
    cases hrest : src.yields s' with
    | mk us error? =>
      rw [hrest] at h
      cases h
      obtain ⟨last, hreach, hlast⟩ := ih hrest
      exact ⟨last, .tuple hpull hreach, hlast⟩
  | case2 s s' hpull =>
    cases h
    exact ⟨s, .refl s, congrArg Prod.fst hpull⟩
  | case3 s e s' hpull => cases h

/-- A run that fails has taken in some tuples. -/
theorem exists_reaches_of_drain {β : Type} {accept : β → Tuple → β × Option EvalError}
    {b b' : β} {e : EvalError} {s s' : σ} (h : src.drain accept b s = ((b', some e), s')) :
    ∃ ts, src.Reaches s ts s' := by
  fun_induction src.drain accept b s with
  | case1 b s t s₁ hpull b₁ haccept ih =>
    obtain ⟨ts, hreach⟩ := ih h
    exact ⟨t :: ts, .tuple hpull hreach⟩
  | case2 b s t s₁ hpull b₁ e₁ haccept =>
    cases h
    exact ⟨[t], .tuple hpull (.refl _)⟩
  | case3 b s s₁ hpull => cases h
  | case4 b s e₁ s₁ hpull =>
    cases h
    exact ⟨[], .failed hpull (.refl _)⟩

theorem Reaches.pass {s s' : σ} {ts us : List Tuple} (h : src.Reaches s ts s')
    (h' : src.Pass s' us) : src.Pass s (ts ++ us) := by
  obtain ⟨last, hreach, hlast⟩ := h'
  exact ⟨last, h.trans hreach, hlast⟩

/-! ## Pulling a sum -/

/-- The answers to some pulls, one after another, and the state that they lead to. -/
inductive Pulls (src : Source σ) (start : σ) : List Pull → σ → Prop
  | nil : Pulls src start [] start
  | more {answers : List Pull} {s s' : σ} {answer : Pull} (h : Pulls src start answers s)
      (hpull : src.pull s = (answer, s')) : Pulls src start (answers ++ [answer]) s'

/-- Pulls of a sum have all failed and have lost some tuples. The others are left over, and can be
taken in by the next pull. -/
structure LeavesOver (src : Source σ) (spec : SumSpec) (start : σ) (failures : List Pull)
    (lost rows : List Tuple) : Prop where
  failed : ∀ answer ∈ failures, ∃ e, answer = .failed e
  reached : ∃ middle, (src.sum spec).Pulls (start, none) failures (middle, none) ∧
    src.Reaches start lost middle ∧ src.yields middle = ⟨rows, none⟩
  clean : failures = [] → lost = []
  ok : (Yield.sum spec ⟨rows, none⟩).error? = none

theorem LeavesOver.pass {spec : SumSpec} {start : σ} {failures : List Pull}
    {lost rows : List Tuple} (h : LeavesOver src spec start failures lost rows) :
    src.Pass start (lost ++ rows) := by
  obtain ⟨middle, -, hreach, hrows⟩ := h.reached
  exact hreach.pass (pass_of_yields hrows)

/-- How far the pulls of a sum have come. -/
inductive SumStage (src : Source σ) (spec : SumSpec) (start : σ) (answers : List Pull) :
    σ × Option (List Tuple) → Prop
  /-- There are no totals yet. -/
  | before {lost : List Tuple} {s : σ} (hfailed : ∀ answer ∈ answers, ∃ e, answer = .failed e)
      (hreach : src.Reaches start lost s) (hclean : answers = [] → lost = []) :
      SumStage src spec start answers (s, none)
  /-- The totals over what was left over are there, and are being handed out. -/
  | after {failures served : List Pull} {lost rows rest : List Tuple} {s : σ}
      (hanswers : answers = failures ++ served)
      (hleft : LeavesOver src spec start failures lost rows)
      (hends : ∀ e, .failed e ∉ served)
      (hserved : ∀ u, .tuple u ∈ served ∨ u ∈ rest → u ∈ (Yield.sum spec ⟨rows, none⟩).tuples) :
      SumStage src spec start answers (s, some rest)

theorem exists_rest_of_deliver {s : σ} {us : List Tuple} {answer : Pull}
    {state : σ × Option (List Tuple)} (h : deliver s us = (answer, state)) :
    (∀ e, answer ≠ .failed e) ∧
      ∃ rest, state = (s, some rest) ∧ ∀ u, answer = .tuple u ∨ u ∈ rest → u ∈ us := by
  cases us with
  | nil =>
    cases h
    exact ⟨by simp, [], rfl, by simp⟩
  | cons t rest =>
    cases h
    refine ⟨by simp, rest, rfl, fun u hu => ?_⟩
    rcases hu with hu | hu
    · cases hu
      exact List.mem_cons_self
    · exact List.mem_cons_of_mem t hu

/-- Once the totals are there, a pull hands out the next one. -/
theorem SumStage.of_deliver {spec : SumSpec} {start s : σ} {failures served : List Pull}
    {answer : Pull} {lost rows us : List Tuple} {state : σ × Option (List Tuple)}
    (hleft : LeavesOver src spec start failures lost rows) (hends : ∀ e, .failed e ∉ served)
    (hserved : ∀ u, .tuple u ∈ served ∨ u ∈ us → u ∈ (Yield.sum spec ⟨rows, none⟩).tuples)
    (h : deliver s us = (answer, state)) :
    SumStage src spec start (failures ++ served ++ [answer]) state := by
  obtain ⟨hanswer, rest, rfl, hus⟩ := exists_rest_of_deliver h
  refine .after (List.append_assoc failures served [answer]) hleft (fun e he => ?_) fun u hu => ?_
  · rcases List.mem_append.mp he with he | he
    · exact hends e he
    · exact hanswer e (List.mem_singleton.mp he).symm
  · rcases hu with hu | hu
    · rcases List.mem_append.mp hu with hu | hu
      · exact hserved u (.inl hu)
      · exact hserved u (.inr (hus u (.inl (List.mem_singleton.mp hu).symm)))
    · exact hserved u (.inr (hus u (.inr hu)))

/-- **One pull.** -/
theorem SumStage.pull {spec : SumSpec} {start : σ} {answers : List Pull} {answer : Pull}
    {state state' : σ × Option (List Tuple)}
    (hpulls : (src.sum spec).Pulls (start, none) answers state)
    (h : SumStage src spec start answers state)
    (hpull : (src.sum spec).pull state = (answer, state')) :
    SumStage src spec start (answers ++ [answer]) state' := by
  cases h with
  | after hanswers hleft hends hserved =>
    rw [hanswers]
    exact .of_deliver hleft hends hserved hpull
  | @before lost s hfailed hreach hclean =>
    simp only [sum] at hpull
    split at hpull
    · -- The pull has taken in all that was left over.
      next totals s' hdrain =>
      have hyields := src.drain_eq_yields spec.accept spec.initial s
      rw [hdrain] at hyields
      obtain ⟨herror, hfeed⟩ := Yield.of_drain hyields.symm
      have hrows : src.yields s = ⟨(src.yields s).tuples, none⟩ := by rw [← herror]
      have hsum : Yield.sum spec ⟨(src.yields s).tuples, none⟩ =
          ⟨SumSpec.results totals, none⟩ := by
        rw [Yield.sum, Yield.drain, hfeed]
      have hleft : LeavesOver src spec start answers lost (src.yields s).tuples :=
        ⟨hfailed, ⟨s, hpulls, hreach, hrows⟩, hclean, by rw [hsum]⟩
      rw [← List.append_nil answers]
      refine .of_deliver hleft (by simp) (fun u hu => ?_) hpull
      rw [hsum]
      exact hu.resolve_left List.not_mem_nil
    · -- What the pull has taken in is lost as well.
      next totals e s' hdrain =>
      cases hpull
      obtain ⟨ts, hts⟩ := exists_reaches_of_drain hdrain
      refine .before (fun a ha => ?_) (hreach.trans hts) (by simp)
      rcases List.mem_append.mp ha with ha | ha
      · exact hfailed a ha
      · exact ⟨e, List.mem_singleton.mp ha⟩

/-- **All pulls.** -/
theorem Pulls.sumStage {spec : SumSpec} {start : σ} {answers : List Pull}
    {state : σ × Option (List Tuple)} (h : (src.sum spec).Pulls (start, none) answers state) :
    SumStage src spec start answers state := by
  induction h with
  | nil => exact .before (by simp) (.refl start) fun _ => rfl
  | more h hpull ih => exact ih.pull h hpull

/-- **A sum is the total over what failed pulls have left over.** It is the total over the whole pass
only if what they have lost does not count. -/
theorem tuple_of_sum {schema : Atom} {outputs : List Variable} {s : Aggregate} {spec : SumSpec}
    (hspec : Plan.resolveSum schema outputs s = .ok spec) {start : σ} {answers : List Pull}
    {state : σ × Option (List Tuple)}
    (hpulls : (src.sum spec).Pulls (start, none) answers state) {u : Tuple}
    (hu : .tuple u ∈ answers) :
    ∃ failures served lost rows, answers = failures ++ served ∧ (∀ e, .failed e ∉ served) ∧
      LeavesOver src spec start failures lost rows ∧ src.Pass start (lost ++ rows) ∧
      ∃ group ∈ groups outputs (rows.map schema.read), ∃ n, u = group ++ [.integer n] ∧
        n.toInt = s.total outputs (rows.map schema.read) group ∧
        (u ∈ (Yield.sum spec ⟨lost ++ rows, none⟩).tuples ↔
          (Yield.sum spec ⟨lost ++ rows, none⟩).error? = none ∧
            s.total outputs (lost.map schema.read) group = 0) := by
  cases hpulls.sumStage with
  | before hfailed =>
    obtain ⟨e, he⟩ := hfailed _ hu
    cases he
  | @after failures served lost rows rest s' hanswers hleft hends hserved =>
    obtain ⟨htuples, hfits⟩ := sum_of_error?_eq_none hspec hleft.ok
    have hmem : u ∈ (Yield.sum spec ⟨rows, none⟩).tuples := by
      rw [hanswers] at hu
      rcases List.mem_append.mp hu with hu | hu
      · obtain ⟨e, he⟩ := hleft.failed _ hu
        cases he
      · exact hserved u (.inl hu)
    rw [htuples] at hmem
    obtain ⟨group, hgroup, rfl⟩ := List.mem_map.mp hmem
    have hn := Integer.toInt_ofInt (hfits.inRange group hgroup)
    exact ⟨failures, served, lost, rows, hanswers, hends, hleft, hleft.pass, group, hgroup, _, rfl,
      hn, mem_sum_append_iff hspec hgroup hn⟩

/-- A column of integers with a line in it that is none. -/
def interruptedStore : Storage :=
  ⟨[(["R.csv"], .file 0)], #[⟨#[0x31, 0x0A, 0x78, 0x0A, 0x32, 0x0A]⟩], []⟩

/-- The scan of the column. -/
def interruptedScan : Source ScanState :=
  scan interruptedStore ⟨"R", [.int]⟩ "R.csv"

/-- The pulls of the scan: a row, a line that cannot be decoded, another row, and no more. -/
theorem pull_interruptedScan :
    interruptedScan.pull ⟨.unread 0, 0⟩ =
        (.tuple [.integer 1], ⟨.lines [.text ['x'], .text ['2']], 1⟩) ∧
      interruptedScan.pull ⟨.lines [.text ['x'], .text ['2']], 1⟩ =
        (.failed (.badField "R" 2 "field 1 'x' is not an int"), ⟨.lines [.text ['2']], 2⟩) ∧
      interruptedScan.pull ⟨.lines [.text ['2']], 2⟩ = (.tuple [.integer 2], ⟨.lines [], 3⟩) ∧
      interruptedScan.pull ⟨.lines [], 3⟩ = (.exhausted, ⟨.lines [], 3⟩) :=
  ⟨rfl, Prod.ext (by decide +kernel) rfl, rfl, rfl⟩

/-- The sum over the column. -/
def columnSum : SumSpec :=
  ⟨⟨[.var ⟨"x"⟩]⟩, [], [.field 0 (.var ⟨"x"⟩)]⟩

/-- The first pull of the sum fails and loses a row, and the second comes to a total. -/
theorem pulls_interruptedScan :
    (interruptedScan.sum columnSum).Pulls (⟨.unread 0, 0⟩, none)
      [.failed (.badField "R" 2 "field 1 'x' is not an int"), .tuple [.integer 2]]
      (⟨.lines [], 3⟩, some []) := by
  obtain ⟨h₁, h₂, h₃, h₄⟩ := pull_interruptedScan
  have hfails : interruptedScan.drain columnSum.accept columnSum.initial ⟨.unread 0, 0⟩ =
      (([([], 1)], some (.badField "R" 2 "field 1 'x' is not an int")),
        ⟨.lines [.text ['2']], 2⟩) := by
    rw [drain_of_tuple _ _ h₁]
    exact drain_of_failed _ _ h₂
  have hworks : interruptedScan.drain columnSum.accept columnSum.initial
      ⟨.lines [.text ['2']], 2⟩ = (([([], 2)], none), ⟨.lines [], 3⟩) := by
    rw [drain_of_tuple _ _ h₃]
    exact drain_of_exhausted _ _ h₄
  have hfirst : (interruptedScan.sum columnSum).pull (⟨.unread 0, 0⟩, none) =
      (.failed (.badField "R" 2 "field 1 'x' is not an int"),
        (⟨.lines [.text ['2']], 2⟩, none)) := by
    simp only [sum, hfails]
  have hsecond : (interruptedScan.sum columnSum).pull (⟨.lines [.text ['2']], 2⟩, none) =
      (.tuple [.integer 2], (⟨.lines [], 3⟩, some [])) := by
    simp only [sum, hworks]
    rfl
  exact .more (.more .nil hfirst) hsecond

theorem tuple_of_sum_interrupted :
    ∃ state,
      (interruptedScan.sum columnSum).Pulls (⟨.unread 0, 0⟩, none)
        [.failed (.badField "R" 2 "field 1 'x' is not an int"), .tuple [.integer 2]] state ∧
      interruptedScan.Pass ⟨.unread 0, 0⟩ [[.integer 1], [.integer 2]] ∧
      (Yield.sum columnSum ⟨[[.integer 1], [.integer 2]], none⟩).tuples = [[.integer 3]] ∧
      ∃ lost rows, lost ++ rows = [[.integer 1], [.integer 2]] ∧
        Aggregate.total ⟨[.var ⟨"x"⟩]⟩ [] (lost.map (Atom.read ⟨"R", [.var ⟨"x"⟩]⟩)) [] ≠ 0 := by
  obtain ⟨h₁, h₂, h₃, h₄⟩ := pull_interruptedScan
  have hpass : interruptedScan.Pass ⟨.unread 0, 0⟩ [[.integer 1], [.integer 2]] :=
    ⟨_, .tuple h₁ (.failed h₂ (.tuple h₃ (.refl _))), congrArg Prod.fst h₄⟩
  have hspec : Plan.resolveSum ⟨"R", [.var ⟨"x"⟩]⟩ [] ⟨[.var ⟨"x"⟩]⟩ = .ok columnSum := rfl
  obtain ⟨failures, served, lost, rows, -, -, -, hwhole, group, -, n, heq, -, hiff⟩ :=
    tuple_of_sum hspec pulls_interruptedScan (List.mem_cons_of_mem _ (List.mem_singleton_self _))
  have hrows := hwhole.unique hpass
  refine ⟨_, pulls_interruptedScan, hpass, by decide, lost, rows, hrows, fun hzero => ?_⟩
  have hgroup : group = [] := by
    cases group with
    | nil => rfl
    | cons c cs => simp at heq
  rw [hgroup, hrows] at hiff
  exact absurd (hiff.mpr ⟨by decide, hzero⟩) (by decide)

end Source

end Conjunct
