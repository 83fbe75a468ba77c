import Conjunct.Proofs.Apart
import Conjunct.Proofs.Evaluation

/-!
# Overwriting the output

**Theorem (`CommandM.evaluate_overwrites`).** Let the output of `evaluate` accept what is written to
it, and let it be none of the files whose tuples are read. A run that fails before tuples are pulled
leaves all files as they were. Any other run returns the number of the tuples that its machine
emits, or the error that ends them, and the output holds a line for each of these tuples and nothing
of what was in it before.

The machine is pulled when the output is open, and possibly emptied, already. That it emits what it
emits over the files as they were is due to the relations being apart from the output
(`Query.collect_of_keeps`).
-/

namespace Conjunct

variable {settings : Settings} {database input output : Path} {store : Storage}

namespace Preparation

/-- What is opened for writing is apart from the relations of the query. -/
def Apart (p : Preparation settings database input output store) : Prop :=
  ∀ a ∈ p.query.atoms, ¬ store.SameFile output (p.catalog.relationPath a.relation)

/-- The machine emits the same whether the output is open or not. -/
theorem collect_opened (p : Preparation settings database input output store)
    (hbacked : store.Backed) (hapart : p.Apart) :
    (p.machine.collect p.opened).1 = (p.machine.collect store).1 := by
  have hcreate := p.target_eq
  cases htarget : p.target with
  | device d =>
    rw [htarget] at hcreate
    obtain ⟨-, e, -, -, -, -, hopened⟩ := Storage.of_create hcreate
    rw [hopened]
  | file number =>
    rw [htarget] at hcreate
    exact Query.collect_of_keeps p.machine_eq hbacked (Storage.keeps_of_create hcreate) fun a ha =>
      Storage.find_ne_of_create hbacked hcreate (hapart a ha)

/-- Emitted tuples are written as lines of their own. -/
theorem lines_renderLines (p : Preparation settings database input output store) {ts : List Tuple}
    {error? : Option EvalError} (h : (p.machine.collect store).1 = (ts, error?)) :
    Text.lines (Tuple.renderLines ts) = ts.map fun t => t.render.toList := by
  obtain ⟨kinds, -, hfits⟩ := Query.exists_fits_of_plan p.machine_eq
  have htuples := hfits store
  rw [h] at htuples
  exact Tuple.lines_renderLines htuples

end Preparation

namespace CommandM

/-- The result of a run that has written some tuples, and the error that has ended them. -/
def ending (ts : List Tuple) : Option EvalError → Except Failure Nat
  | none => .ok ts.length
  | some e => .error (.execute e)

theorem writeResult_of_ne_full {target : Storage.Target} (h : target ≠ .device .full)
    (ts : List Tuple) (text : String) (error? : Option EvalError) :
    writeResult output (⟨target, text⟩, ts.length) error? = ending ts error? := by
  cases error? with
  | some e => rfl
  | none =>
    have hflush : (⟨target, text⟩ : Storage.Output).flush = .ok () := flush_of_ne_full h
    simp only [writeResult, hflush]
    rfl

/-- **An evaluation overwrites its output, or leaves all files alone.** A run of `evaluate` whose
output accepts what is written, and is apart from the relations that are read, ends in one of two
ways. In the first, a stage before the pulling of tuples fails: the run reports the first stage that
does, and no file is changed. In the second, the run reports the number of the tuples that the
planned machine emits over the files as they were, or the error that ends them. The output then
holds exactly the lines of these tuples, and all other files are as before. -/
theorem evaluate_overwrites (settings : Settings) (database input output : Path) (s : Session)
    (hbacked : s.storage.Backed)
    (haccepts : ∀ opened, s.storage.create output ≠ .ok (.device .full, opened))
    (hapart : ∀ p : Preparation settings database input output s.storage, p.Apart) :
    ∃ result after log,
      (evaluate settings database input output).run s = (result, ⟨after, log, s.printed⟩) ∧
      ((∃ f, FailsEarly settings database input output s.storage f ∧
          result = .error f ∧ after = s.storage) ∨
        ∃ (p : Preparation settings database input output s.storage) (ts : List Tuple)
          (error? : Option EvalError),
          (p.machine.collect s.storage).1 = (ts, error?) ∧ result = ending ts error? ∧
          Text.lines (Tuple.renderLines ts) = ts.map (fun t => t.render.toList) ∧
          match p.target with
          | .file number =>
            after.readText output = .ok (Tuple.renderLines ts) ∧ s.storage.Keeps after number
          | .device _ => after = s.storage) := by
  rcases failsEarly_or_preparation settings database input output s.storage with
    ⟨f, hfail⟩ | ⟨⟨p⟩⟩
  · obtain ⟨log, hrun⟩ := run_evaluate_of_failsEarly hfail
    exact ⟨_, _, log, hrun, .inl ⟨f, hfail, rfl, rfl⟩⟩
  · cases hcollect : (p.machine.collect s.storage).1 with
    | mk ts error? =>
      have hfull : p.target ≠ .device .full := fun heq =>
        haccepts p.opened (heq ▸ p.target_eq)
      have hopened : (p.machine.collect p.opened).1 = (ts, error?) :=
        (p.collect_opened hbacked (hapart p)).trans hcollect
      obtain ⟨log, hrun⟩ := run_evaluate_of_preparation p (drain_writeTuple hfull hopened)
      rw [writeResult_of_ne_full hfull] at hrun
      have hlines := p.lines_renderLines hcollect
      refine ⟨_, _, log, hrun, .inr ⟨p, ts, error?, hcollect, rfl, hlines, ?_⟩⟩
      have hcreate := p.target_eq
      cases htarget : p.target with
      | file number =>
        rw [htarget] at hcreate
        exact ⟨Storage.readText_of_create hbacked hcreate,
          (Storage.keeps_of_create hcreate).setContent⟩
      | device d =>
        rw [htarget] at hcreate
        obtain ⟨-, e, -, -, -, -, hsame⟩ := Storage.of_create hcreate
        exact hsame

/-! ## A run that fails midway -/

/-- A session with a query, a schema, a relation whose second row is not made of integers, and a
file that holds what an earlier run has left. -/
def faultySession : Session :=
  ⟨⟨[(["in"], .file 0), (["schema.txt"], .file 1), (["R.csv"], .file 2), (["out"], .file 3)],
    #["Q(x) :- R(x, y)".toUTF8, "R int int".toUTF8, "1,2\n3,x\n".toUTF8, "stale\n".toUTF8], []⟩,
    Log.empty, ""⟩

/-- The query of the session. -/
def faultyQuery : Query :=
  ⟨⟨"Q", [⟨"x"⟩], none⟩, [.atom ⟨"R", [.var ⟨"x"⟩, .var ⟨"y"⟩]⟩]⟩

/-- The catalog of the session. -/
def faultyCatalog : Catalog :=
  ⟨"", ⟨"schema.txt", "", "csv"⟩, [⟨"R", [.int, .int]⟩]⟩

/-- The error for the second row of the relation. -/
def faultyRow : EvalError :=
  .badField "R" 2 "field 2 'x' is not an int"

/-- What a run in the session reads, and what its machine emits. -/
theorem exists_preparation_faultySession :
    ∃ p : Preparation ⟨⟨"schema.txt", "", "csv"⟩, "WARN"⟩ "" "in" "out" faultySession.storage,
      p.query = faultyQuery ∧ p.catalog = faultyCatalog ∧ p.target = .file 3 ∧
      (p.machine.collect faultySession.storage).1 = ([[.integer 1]], some faultyRow) := by
  have htext : faultySession.storage.readText "in" = .ok "Q(x) :- R(x, y)" :=
    Storage.readText_of_find (by rfl) (by rfl)
  have hread : Query.read "Q(x) :- R(x, y)" = .ok faultyQuery := by decide +kernel
  have hcollect : ∃ m, faultyQuery.plan faultySession.storage faultyCatalog = .ok m ∧
      (m.collect faultySession.storage).1 = ([[.integer 1]], some faultyRow) :=
    ⟨_, rfl, by decide +kernel⟩
  obtain ⟨m, hplan, hcollect⟩ := hcollect
  have hcatalog : Catalog.load faultySession.storage "" ⟨"schema.txt", "", "csv"⟩ =
      .ok faultyCatalog := Catalog.load_of_find "R int int" rfl rfl rfl
  obtain ⟨opened, hcreate⟩ :
      ∃ opened, faultySession.storage.create "out" = .ok (.file 3, opened) := ⟨_, rfl⟩
  exact ⟨⟨faultyQuery, faultyCatalog, m, .file 3, opened, ⟨_, htext, hread⟩, hcatalog, hplan,
    hcreate⟩, rfl, rfl, rfl, hcollect⟩

theorem evaluate_overwrites_faultySession :
    faultySession.storage.readText "out" = .ok "stale\n" ∧
    ∃ after log, (evaluate ⟨⟨"schema.txt", "", "csv"⟩, "WARN"⟩ "" "in" "out").run faultySession =
        (.error (.execute faultyRow), ⟨after, log, ""⟩) ∧
      after.readText "out" = .ok "1\n" := by
  obtain ⟨p, hquery, hcatalog, htarget, hcollect⟩ := exists_preparation_faultySession
  have haccepts : ∀ opened, faultySession.storage.create "out" ≠ .ok (.device .full, opened) := by
    intro opened hfull
    cases htarget.symm.trans (congrArg Prod.fst (Except.ok.inj (p.target_eq.symm.trans hfull)))
  have hapart : p.Apart := by
    intro a ha
    rw [hquery] at ha
    cases List.mem_singleton.mp ha
    rintro ⟨place, place', number, hout, hrelation⟩
    rw [hcatalog] at hrelation
    have hfind : faultySession.storage.find "out" = .ok (["out"], .file 3) := by rfl
    have hfind' : faultySession.storage.find (faultyCatalog.relationPath "R") =
        .ok (["R.csv"], .file 2) := by rfl
    cases hfind.symm.trans hout
    cases hfind'.symm.trans hrelation
  obtain ⟨result, after, log, hrun, hends⟩ := evaluate_overwrites _ "" "in" "out" faultySession
    (Storage.backed_of_listed (by decide)) haccepts fun p' => Subsingleton.elim p p' ▸ hapart
  refine ⟨Storage.readText_of_find (by rfl) (by rfl), after, log, ?_⟩
  rcases hends with ⟨f, hfail, -, -⟩ | ⟨p', ts, error?, hts, rfl, -, hout⟩
  · exact (hfail.not_preparation.false p).elim
  · obtain rfl := Subsingleton.elim p p'
    obtain ⟨rfl, rfl⟩ := Prod.mk.inj (hcollect.symm.trans hts)
    rw [htarget] at hout
    exact ⟨hrun, hout.1.trans (by decide +kernel)⟩

end CommandM

end Conjunct
