import Conjunct.Proofs.Binding
import Conjunct.Proofs.Files
import Conjunct.Proofs.Stages

/-!
# Evaluating a file

A run of `evaluate` that returns a number has read a query and the catalog, has planned the query,
and has written every tuple of the machine to the output (`CommandM.exists_evaluation`). The machine
is pulled when the output is open already, so a relation whose file is the output is empty by then.

**Theorem (`CommandM.evaluate_rescans`).** If there is a column in the result at all, then the file
that `evaluate` has written is scanned as the tuples that it has emitted, under the kinds of the
columns that bind the variables of the head, and of an integer for a sum.

The two halves meet at the columns behind a query: each field of a tuple comes from a column of a
file (`Query.Rooted.origins`), and what is read from a line holds neither a comma nor a line feed
(`Tuple.From.isField`).
-/

namespace Conjunct

/-! ## Columns of results -/

namespace Query

variable {catalog : Catalog} {store : Storage} {q : Query} {root : Machine}

/-- The kinds of a query's answers: those of the columns that bind the variables of the head, and an
integer for a sum. -/
def kinds (catalog : Catalog) (q : Query) : List (Option Kind) :=
  q.head.outputs.map (q.kindOf? catalog) ++ if q.head.sum?.isSome then [some .int] else []

theorem kinds_eq_origins (catalog : Catalog) (q : Query) :
    q.kinds catalog = (q.origins catalog).map fun o => o.bind Origin.kind? := by
  rw [kinds, origins, List.map_append, List.map_map]
  congr 1
  split <;> rfl

/-- A planned query has a kind for each of its columns. -/
theorem Rooted.exists_kinds (h : q.Rooted catalog root) :
    ∃ kinds : List Kind, q.kinds catalog = kinds.map some ∧
      root.plan.origins.map Origin.kind? = kinds.map some := by
  have hkinds : q.kinds catalog = root.plan.origins.map Origin.kind? := by
    rw [kinds_eq_origins, ← h.origins, List.map_map]
    rfl
  obtain ⟨kinds, horigins⟩ := Origin.exists_kinds_of_declared h.typed.declared
  exact ⟨kinds, hkinds.trans horigins, horigins⟩

/-- The tuples of a planned query fit its columns, over whatever files. -/
theorem Rooted.fits (h : q.Rooted catalog root) {kinds : List Kind}
    (hkinds : root.plan.origins.map Origin.kind? = kinds.map some) (store : Storage) :
    ∀ t ∈ (root.collect store).1.1, t.Fits kinds := by
  intro t ht
  have hfrom : t.From root.plan.origins :=
    (Plan.lockstep h.typed h.strings store).of_mem_collect h.tracks t ht
  refine ⟨?_, hfrom.isField⟩
  have hmap : (t.map Constant.kind).map some = kinds.map some := by
    rw [List.map_map]
    exact hfrom.map_kind.trans hkinds
  exact (List.map_inj_right fun _ _ => Option.some.inj).mp hmap

/-- A planned query has a kind for each of its columns, and emits tuples of these kinds over
whatever files. -/
theorem exists_fits_of_plan (h : q.plan store catalog = .ok root) :
    ∃ kinds : List Kind, q.kinds catalog = kinds.map some ∧
      ∀ store', ∀ t ∈ (root.collect store').1.1, t.Fits kinds := by
  have hrooted := rooted_of_plan h
  obtain ⟨kinds, hkinds, horigins⟩ := hrooted.exists_kinds
  exact ⟨kinds, hkinds, hrooted.fits horigins⟩

end Query

/-! ## Runs -/

/-- What `evaluate` does when it returns a number: what it reads before, and how it changes the
files. -/
structure Evaluation (settings : Settings) (database input output : Path) (before after : Storage)
    where
  query : Query
  catalog : Catalog
  machine : Machine
  /-- What is opened for writing, and the files from then on. -/
  target : Storage.Target
  opened : Storage
  tuples : List Tuple
  query_eq : ∃ text, before.readText input = .ok text ∧ Query.read text = .ok query
  catalog_eq : Catalog.load before database settings.toLayout = .ok catalog
  machine_eq : query.plan before catalog = .ok machine
  target_eq : before.create output = .ok (target, opened)
  tuples_eq : (machine.collect opened).1 = (tuples, none)
  after_eq : after = (⟨target, Tuple.renderLines tuples⟩ : Storage.Output).close opened

namespace CommandM

variable {s s' : Session}

/-- A run of `evaluate` that returns a number is an evaluation, and returns the number of its
tuples. -/
theorem exists_evaluation {settings : Settings} {database input output : Path} {n : Nat}
    (h : (evaluate settings database input output).run s = (.ok n, s')) :
    ∃ e : Evaluation settings database input output s.storage s'.storage,
      n = e.tuples.length := by
  rcases failsEarly_or_preparation settings database input output s.storage with
    ⟨f, hfail⟩ | ⟨⟨p⟩⟩
  · obtain ⟨log, hrun⟩ := run_evaluate_of_failsEarly hfail
    cases hrun.symm.trans h
  · cases hdrain : (p.machine.drain p.opened (writeTuple output) (⟨p.target, ""⟩, 0)).1 with
    | mk written error? =>
      obtain ⟨log, hrun⟩ := run_evaluate_of_preparation p hdrain
      obtain ⟨hresult, rfl⟩ := Prod.mk.inj (hrun.symm.trans h)
      cases error? with
      | some e => cases hresult
      | none =>
        obtain ⟨ts, hcollect, rfl⟩ := of_drain_writeTuple hdrain
        obtain ⟨_, -, rfl⟩ := exists_of_map_eq_ok hresult
        exact ⟨⟨p.query, p.catalog, p.machine, p.target, p.opened, ts, p.query_eq, p.catalog_eq,
          p.machine_eq, p.target_eq, hcollect, rfl⟩, rfl⟩

end CommandM

namespace Evaluation

variable {settings : Settings} {database input output : Path} {before after : Storage}

/-- The tuples of an evaluation fit the columns of its query. -/
theorem exists_kinds (e : Evaluation settings database input output before after) :
    ∃ kinds, e.query.kinds e.catalog = kinds.map some ∧ ∀ t ∈ e.tuples, t.Fits kinds := by
  obtain ⟨kinds, hkinds, hfits⟩ := Query.exists_fits_of_plan e.machine_eq
  refine ⟨kinds, hkinds, ?_⟩
  have htuples := hfits e.opened
  rwa [e.tuples_eq] at htuples

theorem backed (e : Evaluation settings database input output before after)
    (h : before.Backed) : after.Backed := by
  rw [e.after_eq]
  exact (h.create e.target_eq).close

/-- The file that an evaluation has written. -/
theorem content_eq (e : Evaluation settings database input output before after)
    (h : before.Backed) {number : Nat} (hfile : e.target = .file number) :
    after.openReader output = .ok (.unread number) ∧
      after.content number = (Tuple.renderLines e.tuples).toUTF8 := by
  obtain ⟨_, _, _, target, opened, tuples, _, _, _, hcreate, _, rfl⟩ := e
  obtain rfl : target = .file number := hfile
  exact Storage.content_of_create h hcreate

end Evaluation

namespace CommandM

/-- **Results are relations.** Tuples whose fields have the kinds of some columns, and whose strings
hold neither commas nor line feeds, are scanned again from the lines that are written for them. And
the tuples that a run of `evaluate` has emitted are such tuples, so the file that it has written is
scanned as these tuples. -/
theorem evaluate_rescans :
    (∀ (store : Storage) (path : Path) (number : Nat) (kinds : List Kind) (ts : List Tuple),
      kinds ≠ [] → (∀ t ∈ ts, t.Fits kinds) →
      store.openReader path = .ok (.unread number) →
      store.content number = (Tuple.renderLines ts).toUTF8 →
      store.Scans path kinds ts) ∧
    ∀ (settings : Settings) (database input output : Path) (s s' : Session) (n : Nat),
      (evaluate settings database input output).run s = (.ok n, s') →
      ∃ e : Evaluation settings database input output s.storage s'.storage,
        n = e.tuples.length ∧
        (e.query.head.outputs ≠ [] ∨ e.query.head.sum?.isSome = true →
          ∃ kinds, kinds ≠ [] ∧ e.query.kinds e.catalog = kinds.map some ∧
            (∀ t ∈ e.tuples, t.Fits kinds) ∧
            (s.storage.Backed → s'.storage.Backed ∧
              ∀ number, e.target = .file number →
                s'.storage.openReader output = .ok (.unread number) ∧
                s'.storage.content number = (Tuple.renderLines e.tuples).toUTF8 ∧
                s'.storage.Scans output kinds e.tuples)) := by
  refine ⟨fun store path number kinds ts hkinds hts hopen hcontent =>
    Storage.scans_of_content hkinds hts hopen hcontent, ?_⟩
  intro settings database input output s s' n hrun
  obtain ⟨e, hcount⟩ := exists_evaluation hrun
  refine ⟨e, hcount, fun hhead => ?_⟩
  obtain ⟨kinds, hkinds, hfits⟩ := e.exists_kinds
  have hne : kinds ≠ [] := by
    rintro rfl
    rw [Query.kinds, List.map_nil, List.append_eq_nil_iff, List.map_eq_nil_iff] at hkinds
    rcases hhead with houtputs | hsum
    · exact houtputs hkinds.1
    · rw [if_pos hsum] at hkinds
      exact absurd hkinds.2 (List.cons_ne_nil _ _)
  refine ⟨kinds, hne, hkinds, hfits, fun hbacked => ⟨e.backed hbacked, fun number hfile => ?_⟩⟩
  obtain ⟨hopen, hcontent⟩ := e.content_eq hbacked hfile
  exact ⟨hopen, hcontent, Storage.scans_of_content hne hfits hopen hcontent⟩

/-! ## A small session -/

/-- A session with a query, a schema, and a relation of one row, whose string begins and ends with a
blank and has quotes in it. -/
def quotedSession : Session :=
  ⟨⟨[(["in"], .file 0), (["schema.txt"], .file 1), (["R.csv"], .file 2)],
    #["Q(x, y) :- R(x, y)".toUTF8, "R int string".toUTF8, "7, ' it''s '".toUTF8], []⟩,
    Log.empty, ""⟩

/-- The query of the session. -/
def quotedQuery : Query :=
  ⟨⟨"Q", [⟨"x"⟩, ⟨"y"⟩], none⟩, [.atom ⟨"R", [.var ⟨"x"⟩, .var ⟨"y"⟩]⟩]⟩

/-- The catalog of the session. -/
def quotedCatalog : Catalog :=
  ⟨"", ⟨"schema.txt", "", "csv"⟩, [⟨"R", [.int, .string]⟩]⟩

/-- What an evaluation in the session reads, and where it writes to. -/
theorem evaluation_quotedSession {after : Storage}
    (e : Evaluation ⟨⟨"schema.txt", "", "csv"⟩, "WARN"⟩ "" "in" "out" quotedSession.storage after) :
    e.query = quotedQuery ∧ e.catalog = quotedCatalog ∧ e.target = .file 3 := by
  have hcatalog : Catalog.load quotedSession.storage "" ⟨"schema.txt", "", "csv"⟩ =
      .ok quotedCatalog := Catalog.load_of_find "R int string" rfl rfl rfl
  refine ⟨?_, Except.ok.inj (e.catalog_eq.symm.trans hcatalog), ?_⟩
  · have hread : Query.read "Q(x, y) :- R(x, y)" = .ok quotedQuery := by decide +kernel
    have htext : quotedSession.storage.readText "in" = .ok "Q(x, y) :- R(x, y)" :=
      Storage.readText_of_find (by rfl) (by rfl)
    obtain ⟨text, htext', hread'⟩ := e.query_eq
    cases htext.symm.trans htext'
    exact Except.ok.inj (hread'.symm.trans hread)
  · obtain ⟨opened, hcreate⟩ :
        ∃ opened, quotedSession.storage.create "out" = .ok (.file 3, opened) := ⟨_, rfl⟩
    exact congrArg Prod.fst (Except.ok.inj (e.target_eq.symm.trans hcreate))

theorem evaluate_rescans_quotedSession :
    (Tuple.renderLines [[.integer 7, .string " it''s "]] = "7,' it''s '\n" ∧
      (Query.storageWith (Tuple.renderLines [[.integer 7, .string " it''s "]])).Scans "in"
        [.int, .string] [[.integer 7, .string " it''s "]]) ∧
    ∃ s' ts, (evaluate ⟨⟨"schema.txt", "", "csv"⟩, "WARN"⟩ "" "in" "out").run quotedSession =
        (.ok 1, s') ∧
      ts.length = 1 ∧ s'.storage.content 3 = (Tuple.renderLines ts).toUTF8 ∧
      s'.storage.Scans "out" [.int, .string] ts := by
  obtain ⟨hscans, hevaluate⟩ := evaluate_rescans
  refine ⟨⟨by decide +kernel, hscans _ _ 0 _ _ (by decide) ?_ rfl rfl⟩, ?_⟩
  · intro t ht
    cases List.mem_singleton.mp ht
    exact ⟨rfl, by decide⟩
  · have hok : ((evaluate ⟨⟨"schema.txt", "", "csv"⟩, "WARN"⟩ "" "in" "out").run
        quotedSession).1.toOption = some 1 := by decide +kernel
    cases hrun : (evaluate ⟨⟨"schema.txt", "", "csv"⟩, "WARN"⟩ "" "in" "out").run quotedSession with
    | mk outcome s' =>
      rw [hrun] at hok
      obtain rfl : outcome = .ok 1 := toOption_eq_some hok
      obtain ⟨e, hcount, hrescans⟩ := hevaluate _ _ _ _ _ _ _ hrun
      obtain ⟨hquery, hcatalog, htarget⟩ := evaluation_quotedSession e
      have houtputs : e.query.head.outputs ≠ [] := by
        rw [hquery]
        exact List.cons_ne_nil _ _
      obtain ⟨kinds, -, hkinds, -, hwritten⟩ := hrescans (.inl houtputs)
      have hall : kinds.map some = [.int, .string].map some := by
        rw [← hkinds, hquery, hcatalog]
        decide
      obtain rfl : kinds = [.int, .string] :=
        (List.map_inj_right fun _ _ => Option.some.inj).mp hall
      have hbacked : quotedSession.storage.Backed := Storage.backed_of_listed (by decide)
      obtain ⟨-, hcontent, hrescan⟩ := (hwritten hbacked).2 3 htarget
      exact ⟨s', e.tuples, rfl, hcount.symm, hcontent, hrescan⟩

end CommandM

end Conjunct
