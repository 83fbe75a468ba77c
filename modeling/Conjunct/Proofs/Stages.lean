import Conjunct.Proofs.Commands
import Conjunct.Proofs.Rescan

/-!
# The stages of an evaluation

`evaluate` goes through stages: it reads the query, loads the catalog, plans the query, opens the
output, and pulls tuples. What the last stage starts from is prepared by the others
(`Preparation`), and if there is no such preparation, then one of them fails, and those before it do
not (`FailsEarly`).

**Theorem (`CommandM.run_evaluate_of_failsEarly`, `CommandM.run_evaluate_of_preparation`).** A run
of `evaluate` that fails in one of the first four stages changes the log only. Any other run changes
the output as well: it writes the lines of the tuples that it has pulled.

Only a full device refuses lines. On every other output, what is written are the lines of all tuples
up to the end, or up to the error of the machine (`CommandM.drain_writeTuple`).
-/

namespace Conjunct

/-! ## Preparations -/

/-- What an evaluation has when it begins to pull tuples. -/
structure Preparation (settings : Settings) (database input output : Path) (store : Storage) where
  query : Query
  catalog : Catalog
  machine : Machine
  /-- What is opened for writing, and the files from then on. -/
  target : Storage.Target
  opened : Storage
  query_eq : ∃ text, store.readText input = .ok text ∧ Query.read text = .ok query
  catalog_eq : Catalog.load store database settings.toLayout = .ok catalog
  machine_eq : query.plan store catalog = .ok machine
  target_eq : store.create output = .ok (target, opened)

/-- The failure of the first stage that fails, if it comes before the pulling of tuples. -/
inductive FailsEarly (settings : Settings) (database input output : Path) (store : Storage) :
    Failure → Prop
  | unreadable {e : StorageError} (h : store.readText input = .error e) :
      FailsEarly settings database input output store (.parse (.unreadable input e.message))
  | unparsed {text : String} {e : Query.ReadError} (htext : store.readText input = .ok text)
      (h : Query.read text = .error e) :
      FailsEarly settings database input output store (.parse e)
  | uncatalogued {text : String} {q : Query} {e : CatalogError}
      (htext : store.readText input = .ok text) (hquery : Query.read text = .ok q)
      (h : Catalog.load store database settings.toLayout = .error e) :
      FailsEarly settings database input output store (.catalog e)
  | unplanned {text : String} {q : Query} {catalog : Catalog} {e : PlanError}
      (htext : store.readText input = .ok text) (hquery : Query.read text = .ok q)
      (hcatalog : Catalog.load store database settings.toLayout = .ok catalog)
      (h : q.plan store catalog = .error e) :
      FailsEarly settings database input output store (.plan e)
  | uncreated {text : String} {q : Query} {catalog : Catalog} {m : Machine} {e : StorageError}
      (htext : store.readText input = .ok text) (hquery : Query.read text = .ok q)
      (hcatalog : Catalog.load store database settings.toLayout = .ok catalog)
      (hplan : q.plan store catalog = .ok m) (h : store.create output = .error e) :
      FailsEarly settings database input output store (.output output e.message)

/-- An evaluation that does not fail early is prepared. -/
theorem failsEarly_or_preparation (settings : Settings) (database input output : Path)
    (store : Storage) :
    (∃ f, FailsEarly settings database input output store f) ∨
      Nonempty (Preparation settings database input output store) := by
  cases htext : store.readText input with
  | error e => exact .inl ⟨_, .unreadable htext⟩
  | ok text =>
    cases hquery : Query.read text with
    | error e => exact .inl ⟨_, .unparsed htext hquery⟩
    | ok q =>
      cases hcatalog : Catalog.load store database settings.toLayout with
      | error e => exact .inl ⟨_, .uncatalogued htext hquery hcatalog⟩
      | ok catalog =>
        cases hplan : q.plan store catalog with
        | error e => exact .inl ⟨_, .unplanned htext hquery hcatalog hplan⟩
        | ok m =>
          cases hcreate : store.create output with
          | error e => exact .inl ⟨_, .uncreated htext hquery hcatalog hplan hcreate⟩
          | ok created =>
            exact .inr ⟨⟨q, catalog, m, created.1, created.2, ⟨text, htext, hquery⟩, hcatalog,
              hplan, hcreate⟩⟩

/-- The files determine what is prepared. -/
instance {settings : Settings} {database input output : Path} {store : Storage} :
    Subsingleton (Preparation settings database input output store) := by
  constructor
  rintro ⟨q, catalog, m, target, opened, ⟨text, htext, hquery⟩, hcatalog, hplan, hcreate⟩
    ⟨_, _, _, _, _, ⟨_, htext', hquery'⟩, hcatalog', hplan', hcreate'⟩
  cases htext.symm.trans htext'
  cases hquery.symm.trans hquery'
  cases hcatalog.symm.trans hcatalog'
  cases hplan.symm.trans hplan'
  cases hcreate.symm.trans hcreate'
  rfl

/-- A prepared evaluation does not fail early. -/
theorem FailsEarly.not_preparation {settings : Settings} {database input output : Path}
    {store : Storage} {f : Failure} (h : FailsEarly settings database input output store f) :
    IsEmpty (Preparation settings database input output store) := by
  constructor
  rintro ⟨q, catalog, m, target, opened, ⟨text, htext', hquery'⟩, hcatalog', hplan', hcreate'⟩
  cases h with
  | unreadable h => cases h.symm.trans htext'
  | unparsed htext h =>
    cases htext.symm.trans htext'
    cases h.symm.trans hquery'
  | uncatalogued htext hquery h => cases h.symm.trans hcatalog'
  | unplanned htext hquery hcatalog h =>
    cases htext.symm.trans htext'
    cases hquery.symm.trans hquery'
    cases hcatalog.symm.trans hcatalog'
    cases h.symm.trans hplan'
  | uncreated htext hquery hcatalog hplan h => cases h.symm.trans hcreate'

namespace CommandM

variable {s : Session}

/-! ## Writing -/

theorem of_write {o o' : Storage.Output} {text : String} (h : o.write text = .ok o') :
    o' = ⟨o.target, o.text ++ text⟩ := by
  simp only [Storage.Output.write] at h
  split at h
  · split at h
    · cases h
    · cases h
      rfl
  · cases h
    rfl

/-- What is written, tuple by tuple, while nothing is refused. -/
theorem of_feed_writeTuple {path : Path} {ts : List Tuple}
    {written written' : Storage.Output × Nat}
    (h : Yield.feed (writeTuple path) written ts = (written', none)) :
    written' = (⟨written.1.target, written.1.text ++ Tuple.renderLines ts⟩,
      written.2 + ts.length) := by
  induction ts generalizing written with
  | nil =>
    cases h
    simp [Tuple.renderLines]
  | cons t ts ih =>
    rw [Yield.feed] at h
    cases hwrite : written.1.write (t.render ++ "\n") with
    | error e => simp [writeTuple, hwrite] at h
    | ok o =>
      simp only [writeTuple, hwrite] at h
      rw [ih h, of_write hwrite]
      simp [Tuple.renderLines, String.append_assoc, Nat.add_assoc, Nat.add_comm 1]

/-- A machine whose tuples have all been written has been collected without an error. -/
theorem of_drain_writeTuple {machine : Machine} {store : Storage} {path : Path}
    {target : Storage.Target} {written : Storage.Output × Nat}
    (h : (machine.drain store (writeTuple path) (⟨target, ""⟩, 0)).1 = (written, none)) :
    ∃ ts, (machine.collect store).1 = (ts, none) ∧
      written = (⟨target, Tuple.renderLines ts⟩, ts.length) := by
  have hdrain := (machine.plan.source store).drain_eq_yields (writeTuple path) (⟨target, ""⟩, 0)
    machine.state
  have hcollect : (machine.collect store).1 = _ :=
    (machine.plan.source store).collect_eq_yields machine.state
  generalize (machine.plan.source store).yields machine.state = o at hdrain hcollect
  have hyield : o.drain (writeTuple path) (⟨target, ""⟩, 0) = (written, none) := hdrain ▸ h
  cases hfeed : Yield.feed (writeTuple path) (⟨target, ""⟩, 0) o.tuples with
  | mk written' refused? =>
    cases refused? with
    | some e => simp [Yield.drain, hfeed] at hyield
    | none =>
      simp only [Yield.drain, hfeed, Prod.mk.injEq] at hyield
      obtain ⟨rfl, hend⟩ := hyield
      refine ⟨o.tuples, hend ▸ hcollect, ?_⟩
      simpa using of_feed_writeTuple hfeed

section Accepting

variable {o : Storage.Output} {target : Storage.Target}

theorem write_of_ne_full (h : o.target ≠ .device .full) (text : String) :
    o.write text = .ok ⟨o.target, o.text ++ text⟩ := by
  unfold Storage.Output.write
  split
  · next hfull => exact absurd hfull h
  · rfl

theorem flush_of_ne_full (h : o.target ≠ .device .full) : o.flush = .ok () := by
  unfold Storage.Output.flush
  split
  · next hfull => exact absurd hfull h
  · rfl

/-- Nothing but a full device refuses a line. -/
theorem exists_feed_writeTuple (path : Path) (ts : List Tuple) (written : Storage.Output × Nat)
    (h : written.1.target ≠ .device .full) :
    ∃ written', Yield.feed (writeTuple path) written ts = (written', none) := by
  induction ts generalizing written with
  | nil => exact ⟨written, rfl⟩
  | cons t ts ih =>
    rw [Yield.feed]
    simp only [writeTuple, write_of_ne_full h]
    exact ih _ h

/-- The lines of the tuples of a machine are written, whether it ends with an error or not. -/
theorem drain_writeTuple {machine : Machine} {store : Storage} {path : Path} {ts : List Tuple}
    {error? : Option EvalError} (h : target ≠ .device .full)
    (hcollect : (machine.collect store).1 = (ts, error?)) :
    (machine.drain store (writeTuple path) (⟨target, ""⟩, 0)).1 =
      ((⟨target, Tuple.renderLines ts⟩, ts.length), error?) := by
  have hdrain : (machine.drain store (writeTuple path) (⟨target, ""⟩, 0)).1 = _ :=
    (machine.plan.source store).drain_eq_yields (writeTuple path) (⟨target, ""⟩, 0) machine.state
  have hyields : (machine.collect store).1 = _ :=
    (machine.plan.source store).collect_eq_yields machine.state
  generalize (machine.plan.source store).yields machine.state = o at hdrain hyields
  obtain ⟨rfl, rfl⟩ := Prod.mk.inj (hyields.symm.trans hcollect)
  obtain ⟨written, hfeed⟩ := exists_feed_writeTuple path o.tuples (⟨target, ""⟩, 0) h
  rw [hdrain, Yield.drain, hfeed, of_feed_writeTuple hfeed]
  simp

end Accepting

/-! ## Stages -/

theorem run_loadCatalog {layout : Layout} {database : Path} {catalog : Catalog}
    (h : Catalog.load s.storage database layout = .ok catalog) :
    ∃ log, (loadCatalog layout database).run s = (.ok catalog, { s with log }) := by
  rw [loadCatalog, run_get_bind]
  exact ⟨_, (run_bind_of_ok (run_atStage_of_ok h)).trans rfl⟩

theorem run_loadCatalog_of_error {layout : Layout} {database : Path} {e : CatalogError}
    (h : Catalog.load s.storage database layout = .error e) :
    (loadCatalog layout database).run s = (.error (.catalog e), s) := by
  rw [loadCatalog, run_get_bind]
  exact run_atStage_bind_of_error h

theorem run_planQuery {catalog : Catalog} {q : Query} {m : Machine}
    (h : q.plan s.storage catalog = .ok m) :
    ∃ log, (planQuery catalog q).run s = (.ok m, { s with log }) := by
  rw [planQuery, run_get_bind]
  exact ⟨_, (run_bind_of_ok (run_atStage_of_ok h)).trans rfl⟩

theorem run_planQuery_of_error {catalog : Catalog} {q : Query} {e : PlanError}
    (h : q.plan s.storage catalog = .error e) :
    (planQuery catalog q).run s = (.error (.plan e), s) := by
  rw [planQuery, run_get_bind]
  exact run_atStage_bind_of_error h

theorem run_createOutput {path : Path} {target : Storage.Target} {opened : Storage}
    (h : s.storage.create path = .ok (target, opened)) :
    (createOutput path).run s = (.ok ⟨target, ""⟩, { s with storage := opened }) := by
  rw [createOutput, run_get_bind]
  exact (run_bind_of_ok (run_atStage_of_ok h)).trans rfl

theorem run_createOutput_of_error {path : Path} {e : StorageError}
    (h : s.storage.create path = .error e) :
    (createOutput path).run s = (.error (.output path e.message), s) := by
  rw [createOutput, run_get_bind]
  exact run_atStage_bind_of_error h

/-- The result of writing tuples: their number, unless pulling or flushing has failed. -/
def writeResult (path : Path) (written : Storage.Output × Nat) (error? : Option EvalError) :
    Except Failure Nat :=
  match error? with
  | some e => .error (.execute e)
  | none => (written.1.flush.mapError fun e => .output path e.message).map fun _ => written.2

theorem run_writeTuples {machine : Machine} {path : Path} {target : Storage.Target}
    {opened : Storage} {written : Storage.Output × Nat} {error? : Option EvalError}
    (hcreate : s.storage.create path = .ok (target, opened))
    (hdrain : (machine.drain opened (writeTuple path) (⟨target, ""⟩, 0)).1 = (written, error?)) :
    (writeTuples machine path).run s =
      (writeResult path written error?, { s with storage := written.1.close opened }) := by
  rw [writeTuples]
  refine (run_bind_of_ok (run_createOutput hcreate)).trans ?_
  rw [run_get_bind]
  dsimp only
  cases houtcome : machine.drain opened (writeTuple path) (⟨target, ""⟩, 0) with
  | mk outcome _ =>
    rw [houtcome] at hdrain
    obtain rfl : outcome = (written, error?) := hdrain
    cases error? with
    | some e => rfl
    | none =>
      rw [writeResult]
      cases hflush : written.1.flush <;> rfl

/-! ## Runs -/

variable {settings : Settings} {database input output : Path} {text : String} {q : Query}
  {catalog : Catalog}

/-- Once the query and the catalog have been loaded, a command goes on with them. -/
theorem exists_run_load (htext : s.storage.readText input = .ok text)
    (hquery : Query.read text = .ok q)
    (hcatalog : Catalog.load s.storage database settings.toLayout = .ok catalog) :
    ∃ log, ∀ {α : Type} (f : Query → Catalog → CommandM α),
      (loadQuery input >>= fun q => loadCatalog settings.toLayout database >>= f q).run s =
        (f q catalog).run { s with log } := by
  obtain ⟨log₁, hload⟩ := run_loadQuery htext hquery
  obtain ⟨log₂, hdeclare⟩ := run_loadCatalog (s := { s with log := log₁ }) hcatalog
  exact ⟨log₂, fun f => (run_bind_of_ok hload).trans (run_bind_of_ok hdeclare)⟩

/-- Once the query has been planned as well, a command goes on with the machine. -/
theorem exists_run_plan {m : Machine} (htext : s.storage.readText input = .ok text)
    (hquery : Query.read text = .ok q)
    (hcatalog : Catalog.load s.storage database settings.toLayout = .ok catalog)
    (hplan : q.plan s.storage catalog = .ok m) :
    ∃ log, ∀ {α : Type} (f : Machine → CommandM α),
      (loadQuery input >>= fun q => loadCatalog settings.toLayout database >>= fun catalog =>
        planQuery catalog q >>= f).run s = (f m).run { s with log } := by
  obtain ⟨log₁, hload⟩ := exists_run_load htext hquery hcatalog
  obtain ⟨log₂, hmachine⟩ := run_planQuery (s := { s with log := log₁ }) hplan
  exact ⟨log₂, fun f => (hload _).trans (run_bind_of_ok hmachine)⟩

/-- **A run that fails early changes the log only.** -/
theorem run_evaluate_of_failsEarly {f : Failure}
    (h : FailsEarly settings database input output s.storage f) :
    ∃ log, (evaluate settings database input output).run s = (.error f, { s with log }) := by
  let scope : Scope := ⟨"EVALUATE", [("input", input)]⟩
  let begun : Session := { s with log := scope.begin s.log }
  rw [evaluate]
  cases h with
  | unreadable h =>
    have hfail := run_loadQuery_of_unreadable (s := begun) h
    exact run_within begun (run_bind_of_error hfail)
  | unparsed htext h =>
    have hfail := run_loadQuery_of_unparsed (s := begun) htext h
    exact run_within begun (run_bind_of_error hfail)
  | uncatalogued htext hquery h =>
    obtain ⟨log, hload⟩ := run_loadQuery (s := begun) htext hquery
    have hfail := run_loadCatalog_of_error (s := { begun with log }) h
    exact run_within { begun with log }
      ((run_bind_of_ok hload).trans (run_bind_of_error hfail))
  | unplanned htext hquery hcatalog h =>
    obtain ⟨log, hload⟩ := exists_run_load (s := begun) htext hquery hcatalog
    have hfail := run_planQuery_of_error (s := { begun with log }) h
    exact run_within { begun with log } ((hload _).trans (run_bind_of_error hfail))
  | uncreated htext hquery hcatalog hplan h =>
    obtain ⟨log, hload⟩ := exists_run_plan (s := begun) htext hquery hcatalog hplan
    have hfail := run_createOutput_of_error (s := { begun with log }) h
    exact run_within { begun with log }
      ((hload _).trans (run_bind_of_error (run_bind_of_error hfail)))

/-- **A run that is prepared pulls the machine**, and writes what it has pulled. -/
theorem run_evaluate_of_preparation {written : Storage.Output × Nat} {error? : Option EvalError}
    (p : Preparation settings database input output s.storage)
    (hdrain : (p.machine.drain p.opened (writeTuple output) (⟨p.target, ""⟩, 0)).1 =
      (written, error?)) :
    ∃ log, (evaluate settings database input output).run s =
      (writeResult output written error?, ⟨written.1.close p.opened, log, s.printed⟩) := by
  let scope : Scope := ⟨"EVALUATE", [("input", input)]⟩
  let begun : Session := { s with log := scope.begin s.log }
  obtain ⟨text, htext, hquery⟩ := p.query_eq
  rw [evaluate]
  obtain ⟨log, hload⟩ := exists_run_plan (s := begun) htext hquery p.catalog_eq p.machine_eq
  have hwrite := run_writeTuples (s := { begun with log }) p.target_eq hdrain
  cases hresult : writeResult output written error? with
  | error f =>
    rw [hresult] at hwrite
    exact run_within ⟨written.1.close p.opened, log, s.printed⟩
      ((hload _).trans (run_bind_of_error hwrite))
  | ok n =>
    rw [hresult] at hwrite
    let fields : Fields := [("tuples", toString n)]
    exact run_within ⟨written.1.close p.opened, log.report .queryComplete fields, s.printed⟩
      ((hload _).trans ((run_bind_of_ok hwrite).trans rfl))

end CommandM

end Conjunct
