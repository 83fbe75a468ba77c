import Conjunct.Command.Session

/-!
# What commands do to a session

A command carries out its steps one after the other, up to the first that fails. Reporting changes
the log alone, so a scope around a command, the query that it loads and the atoms that it takes away
leave the files as they are.

**Theorem (`CommandM.run_minimizeFile`).** Minimizing a file that can be read writes the text of the
minimized query and a newline, and nothing else.
-/

namespace Conjunct

/-- A log with a report of every atom that is taken away. -/
def Log.reportRemovals (log : Log) (removals : List Query.Removal) : Log :=
  removals.foldl (fun log r =>
    log.report .minimizeAtomRemoved [("atom", r.atom), ("position", toString r.position)]) log

namespace CommandM

variable {α β : Type} {s s' : Session} {a : α}

/-! ## Steps -/

theorem run_bind_of_ok {x : CommandM α} {f : α → CommandM β} (h : x.run s = (.ok a, s')) :
    (x >>= f).run s = (f a).run s' := by
  show (match x.run s with | (r, s') => ExceptT.bindCont f r s') = (f a).run s'
  rw [h]
  rfl

/-- What comes after a failure is not carried out. -/
theorem run_bind_of_error {x : CommandM α} {f : α → CommandM β} {e : Failure}
    (h : x.run s = (.error e, s')) : (x >>= f).run s = (.error e, s') := by
  show (match x.run s with | (r, s') => ExceptT.bindCont f r s') = (.error e, s')
  rw [h]
  rfl

theorem run_get_bind (f : Session → CommandM β) (s : Session) : (get >>= f).run s = (f s).run s :=
  rfl

theorem run_atStage_of_ok {ε : Type} {stage : ε → Failure} {r : Except ε α} (h : r = .ok a) :
    (atStage stage r).run s = (.ok a, s) := by
  rw [h]
  rfl

theorem run_atStage_bind_of_error {ε : Type} {stage : ε → Failure} {r : Except ε α}
    {f : α → CommandM β} {e : ε} (h : r = .error e) :
    (atStage stage r >>= f).run s = (.error (stage e), s) := by
  rw [h]
  rfl

theorem run_tryCatch_of_ok {x : CommandM α} {handler : Failure → CommandM α}
    (h : x.run s = (.ok a, s')) : (tryCatch x handler).run s = (.ok a, s') := by
  have hx : x s = (.ok a, s') := h
  show ExceptT.tryCatch x handler s = (.ok a, s')
  simp only [ExceptT.tryCatch, ExceptT.mk, bind, StateT.bind, hx]
  rfl

theorem run_tryCatch_of_error {x : CommandM α} {handler : Failure → CommandM α} {e : Failure}
    (h : x.run s = (.error e, s')) : (tryCatch x handler).run s = (handler e).run s' := by
  have hx : x s = (.error e, s') := h
  show ExceptT.tryCatch x handler s = (handler e).run s'
  simp only [ExceptT.tryCatch, ExceptT.mk, bind, StateT.bind, hx]
  rfl

/-- A scope around a command adds to the log only, whether the command fails or not. -/
theorem run_within {scope : Scope} {summary : α → String} {command : CommandM α}
    {result : Except Failure α} (s' : Session)
    (h : command.run { s with log := scope.begin s.log } = (result, s')) :
    ∃ log, (within scope summary command).run s = (result, { s' with log }) := by
  cases result with
  | ok a =>
    refine ⟨scope.complete s'.log [("result", summary a)], ?_⟩
    rw [within]
    refine (run_bind_of_ok rfl).trans (run_tryCatch_of_ok ?_)
    exact (run_bind_of_ok h).trans rfl
  | error e =>
    refine ⟨scope.fail s'.log e.message, ?_⟩
    rw [within]
    refine (run_bind_of_ok rfl).trans ((run_tryCatch_of_error ?_).trans rfl)
    exact run_bind_of_error h

theorem run_forM_report {ι : Type} (e : Event) (fields : ι → Fields) (is : List ι) (s : Session) :
    (is.forM fun i => report e (fields i)).run s =
      (.ok (), { s with log := is.foldl (fun log i => log.report e (fields i)) s.log }) := by
  induction is generalizing s with
  | nil => rfl
  | cons i is ih => exact (run_bind_of_ok rfl).trans (ih { s with log := s.log.report e (fields i) })

/-! ## Reading a query -/

theorem run_loadQuery {path : Path} {text : String} {q : Query}
    (htext : s.storage.readText path = .ok text) (hq : Query.read text = .ok q) :
    ∃ log, (loadQuery path).run s = (.ok q, { s with log }) := by
  refine ⟨s.log.report .queryParsed [("atoms", toString q.body.length), ("query", q.render)],
    ?_⟩
  rw [loadQuery, run_get_bind]
  refine (run_bind_of_ok (run_atStage_of_ok htext)).trans ?_
  exact (run_bind_of_ok (run_atStage_of_ok hq)).trans rfl

theorem run_loadQuery_of_unreadable {path : Path} {e : StorageError}
    (h : s.storage.readText path = .error e) :
    (loadQuery path).run s = (.error (.parse (.unreadable path e.message)), s) := by
  rw [loadQuery, run_get_bind]
  exact run_atStage_bind_of_error h

theorem run_loadQuery_of_unparsed {path : Path} {text : String} {e : Query.ReadError}
    (htext : s.storage.readText path = .ok text) (h : Query.read text = .error e) :
    (loadQuery path).run s = (.error (.parse e), s) := by
  rw [loadQuery, run_get_bind]
  exact (run_bind_of_ok (run_atStage_of_ok htext)).trans (run_atStage_bind_of_error h)

/-! ## Minimizing a file -/

theorem run_minimizeQuery {q minimized : Query} {removals : List Query.Removal}
    (h : q.minimize = .ok (minimized, removals)) :
    (minimizeQuery q).run s =
      (.ok minimized, { s with log := s.log.reportRemovals removals }) := by
  rw [minimizeQuery]
  refine (run_bind_of_ok (run_atStage_of_ok h)).trans ?_
  exact (run_bind_of_ok (run_forM_report .minimizeAtomRemoved _ removals s)).trans rfl

/-- The command writes the text of the minimized query and a newline. -/
theorem run_minimizeFile {input output : Path} {text : String} {q minimized : Query}
    {removals : List Query.Removal} {storage : Storage}
    (htext : s.storage.readText input = .ok text) (hq : Query.read text = .ok q)
    (hmin : q.minimize = .ok (minimized, removals))
    (hwrite : s.storage.writeText output (minimized.render ++ "\n") = .ok storage) :
    ∃ log, (minimizeFile input output).run s = (.ok minimized, ⟨storage, log, s.printed⟩) := by
  let scope : Scope := ⟨"MINIMIZE", [("input", input)]⟩
  let begun : Session := { s with log := scope.begin s.log }
  obtain ⟨log₁, hload⟩ := run_loadQuery (s := begun) htext hq
  let log₂ := log₁.reportRemovals removals
  have hminimize := run_minimizeQuery (s := { begun with log := log₁ }) hmin
  let fields : Fields := [("atoms_after", toString minimized.body.length),
    ("atoms_before", toString q.body.length)]
  let written : Session := ⟨storage, log₂.report .minimizeComplete fields, s.printed⟩
  refine run_within written ?_
  refine (run_bind_of_ok hload).trans ?_
  refine (run_bind_of_ok hminimize).trans ?_
  refine (run_bind_of_ok (a := { begun with log := log₂ }) rfl).trans ?_
  exact (run_bind_of_ok (run_atStage_of_ok hwrite)).trans rfl

end CommandM

end Conjunct
