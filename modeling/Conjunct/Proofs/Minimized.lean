import Conjunct.Proofs.Commands
import Conjunct.Proofs.Core

/-!
# Minimized queries

What a query looks like after minimizing, whatever it was before: a part of the body is left, in the
same order and under the same head, without equal atoms, and it is not changed by minimizing once
more. No variable of the head is lost and no body becomes empty, although neither is looked after:
both follow from the folding of the query onto what is left (`FoldsOnto`).

Each atom that is taken away is reported once (`Log.occurrences_reportRemovals`).

**Theorem (`Query.minimize_shape`).** The shape of a minimized query, and the number of reports.
-/

namespace Conjunct

/-! ## Counting reports -/

namespace Log

/-- The number of records of an event. -/
def occurrences (log : Log) (e : Event) : Nat :=
  log.records.countP (·.event = e.name)

theorem report_of_reaches {log : Log} {e : Event} (h : e.severity.reaches log.threshold = true)
    (fields : Fields) :
    (log.report e fields).threshold = log.threshold ∧
      (log.report e fields).occurrences e = log.occurrences e + 1 := by
  rw [report, add, offer, if_pos h]
  exact ⟨rfl, by simp [occurrences, List.countP_append]⟩

theorem report_of_not_reaches {log : Log} {e : Event}
    (h : e.severity.reaches log.threshold = false) (fields : Fields) :
    log.report e fields = log := by
  rw [report, add, offer, if_neg]
  simpa using h

theorem reportRemovals_of_not_reaches {log : Log}
    (h : Event.minimizeAtomRemoved.severity.reaches log.threshold = false)
    (removals : List Query.Removal) : log.reportRemovals removals = log := by
  induction removals with
  | nil => rfl
  | cons r removals ih =>
    rw [reportRemovals, List.foldl_cons, report_of_not_reaches h]
    exact ih

/-- A log that takes reports of removals in counts them. -/
theorem occurrences_reportRemovals {log : Log}
    (h : Event.minimizeAtomRemoved.severity.reaches log.threshold = true)
    (removals : List Query.Removal) :
    (log.reportRemovals removals).occurrences .minimizeAtomRemoved =
      log.occurrences .minimizeAtomRemoved + removals.length := by
  induction removals generalizing log with
  | nil => rfl
  | cons r removals ih =>
    obtain ⟨hthreshold, hcount⟩ := report_of_reaches h
      [("atom", r.atom), ("position", toString r.position)]
    have hrest := ih (hthreshold.symm ▸ h)
    rw [hcount] at hrest
    rw [List.length_cons, Nat.add_comm removals.length, ← Nat.add_assoc]
    exact hrest

end Log

namespace Query

variable {q : Query}

/-! ## Removals -/

/-- There are as many removals as atoms that are gone. -/
theorem length_reduce (q : Query) :
    q.reduce.2.length + q.reduce.1.body.length = q.body.length := by
  fun_induction reduce q with
  | case1 q => exact Nat.zero_add _
  | case2 q position hfirst text reduced removals hreduced ih =>
    rw [hreduced] at ih
    have hlength := length_without (firstRedundant?_lt hfirst)
    simp only [List.length_cons] at ih ⊢
    omega

/-! ## What folding keeps -/

/-- A query with a body does not fold onto one without. -/
theorem FoldsOnto.body_ne_nil {part : Query} (h : FoldsOnto q part) (hcs : q.comparisons = [])
    (hne : q.body ≠ []) : part.body ≠ [] := by
  obtain ⟨literal, hliteral⟩ := List.exists_mem_of_ne_nil _ hne
  obtain ⟨a, rfl⟩ := exists_atom_of_mem_body hcs hliteral
  obtain ⟨σ, _, honto⟩ := h.onto
  exact List.ne_nil_of_mem (mem_atoms.mp (honto a (mem_atoms.mpr hliteral)))

/-! ## The shape -/

/-- **The shape of a minimized query.** The head is kept, and so are some of the atoms, in order:
at least one if there was one, no two equal ones, and all distinguished variables in them.
Minimizing again takes nothing away. What is taken away is reported, atom by atom, to a log that
takes such reports in; any other log stays as it is. -/
theorem minimize_shape (hcs : q.comparisons = []) :
    ∃ minimized removals, q.minimize = .ok (minimized, removals) ∧
      minimized.head = q.head ∧ minimized.body.Sublist q.body ∧
      (q.body ≠ [] → minimized.body ≠ []) ∧ minimized.body.Nodup ∧
      (∀ v ∈ q.head.distinguished, v ∈ boundIn q.atoms → v ∈ boundIn minimized.atoms) ∧
      minimized.minimize = .ok (minimized, []) ∧
      removals.length + minimized.body.length = q.body.length ∧
      ∀ s : Session, ∃ log, (CommandM.minimizeQuery q).run s = (.ok minimized, { s with log }) ∧
        (Event.minimizeAtomRemoved.severity.reaches s.log.threshold = true →
          log.occurrences .minimizeAtomRemoved =
            s.log.occurrences .minimizeAtomRemoved + removals.length) ∧
        (Event.minimizeAtomRemoved.severity.reaches s.log.threshold = false → log = s.log) := by
  have hfolds := foldsOnto_reduce q
  have hcs' := hfolds.comparisons_eq_nil hcs
  have hagain : q.reduce.1.minimize = .ok (q.reduce.1, []) := by
    rw [minimize_eq_ok hcs', reduce_eq_self (firstRedundant?_reduce q)]
  refine ⟨_, _, minimize_eq_ok hcs, hfolds.head, hfolds.body, hfolds.body_ne_nil hcs,
    nodup_body (not_isRedundant_reduce q) hcs', fun v hv => hfolds.bound hv, hagain,
    length_reduce q, fun s => ⟨_, CommandM.run_minimizeQuery (minimize_eq_ok hcs), ?_, ?_⟩⟩
  · exact fun h => Log.occurrences_reportRemovals h _
  · exact fun h => Log.reportRemovals_of_not_reaches h _

/-- A session in which everything is recorded. -/
def chattySession : Session :=
  ⟨⟨[], #[], []⟩, ⟨.trace, []⟩, ""⟩

/-- A path of two edges into a loop, with one of the edges twice. -/
def doubledPath : Query :=
  let edge (v w : String) : Literal := .atom ⟨"R", [.var ⟨v⟩, .var ⟨w⟩]⟩
  ⟨⟨"Q", [⟨"x"⟩], none⟩, [edge "x" "y", edge "y" "z", edge "x" "y", edge "z" "z"]⟩

/-- The edge that is there twice is taken away once; the rest cannot be folded, since the path
begins at a distinguished variable. -/
theorem minimize_shape_doubledPath :
    doubledPath.comparisons = [] ∧
      ∃ minimized removals log, doubledPath.minimize = .ok (minimized, removals) ∧
        minimized.body.length = 3 ∧ removals.length = 1 ∧
        minimized.minimize = .ok (minimized, []) ∧
        (CommandM.minimizeQuery doubledPath).run chattySession =
          (.ok minimized, { chattySession with log }) ∧
        log.occurrences .minimizeAtomRemoved = 1 := by
  obtain ⟨minimized, removals, hminimize, -, -, -, -, -, hagain, hlength, hrun⟩ :=
    minimize_shape (q := doubledPath) rfl
  obtain ⟨log, hlog, hcount, -⟩ := hrun chattySession
  have hremovals : doubledPath.minimize.toOption.map (fun r => r.2.length) = some 1 := by
    decide +kernel
  rw [hminimize] at hremovals
  have hone : removals.length = 1 := Option.some.inj hremovals
  have hfour : removals.length + minimized.body.length = 4 := hlength
  have hcount' : log.occurrences .minimizeAtomRemoved = 0 + removals.length := hcount rfl
  exact ⟨rfl, minimized, removals, log, hminimize, by omega, hone, hagain, hlog, by omega⟩

end Query

end Conjunct
