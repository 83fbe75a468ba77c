import Conjunct.Plan.Machine
import Conjunct.Proofs.Lockstep
import Conjunct.Proofs.Machine

/-!
# Recorded runs

What goes on inside a plan is not seen from outside: a pull at the top makes an operator below pull
many times, or not at all. To speak of all the tuples that an operator hands out, every operator of
a plan is given a record (`Plan.recorded`), and `Machine.records` says what is in it once requests
have been served. A request may come with any storage, so files may change in between.

Sources in lockstep make the same replies to any requests (`Request.serveAll_lockstep`).
-/

namespace Conjunct

/-! ## Requests -/

/-- What a source can be asked for, and over which files. -/
inductive Request : Type 1 where
  /-- The next tuple. -/
  | pull (store : Storage)
  /-- To start again. -/
  | reset (store : Storage)
  /-- To pass on all tuples. -/
  | dump {β : Type} (store : Storage) (accept : β → Tuple → β × Option EvalError) (b : β)

/-- What a source says to a request. -/
inductive Reply : Type 1 where
  | answer (a : Pull)
  | outcome (o : Except EvalError Unit)
  | dumped {β : Type} (b : β) (error? : Option EvalError)

section

variable {σ : Type} (src : Storage → Source σ)

/-- Reply to one request. -/
def Request.serve : Request → σ → Reply × σ
  | pull store, s => ((src store).pull s).map .answer id
  | reset store, s => ((src store).reset s).map .outcome id
  | dump store accept b, s =>
    ((src store).drain accept b s).map (fun (b, error?) => .dumped b error?) id

/-- Reply to requests, one after the other. -/
def Request.serveAll : List Request → σ → List Reply × σ
  | [], s => ([], s)
  | r :: rest, s =>
    let (reply, s') := r.serve src s
    let (replies, s'') := serveAll rest s'
    (reply :: replies, s'')

end

section Lockstep

variable {σ σ' : Type} {src' : Storage → Source σ'} {src : Storage → Source σ}
  {R : σ' → σ → Prop} {T : Tuple → Prop} {E : EvalError → Prop} {s' : σ'} {s : σ}

theorem Request.serve_lockstep (h : ∀ store, (src' store).Lockstep (src store) R T E)
    (r : Request) (hs : R s' s) :
    (r.serve src' s').1 = (r.serve src s).1 ∧ R (r.serve src' s').2 (r.serve src s).2 := by
  cases r with
  | pull store =>
    have hsame := (h store).pull hs
    simp only [serve]
    generalize (src' store).pull s' = x' at hsame ⊢
    generalize (src store).pull s = x at hsame ⊢
    cases hsame with
    | tuple _ hs => exact ⟨rfl, hs⟩
    | exhausted hs => exact ⟨rfl, hs⟩
    | failed _ hs => exact ⟨rfl, hs⟩
  | reset store =>
    have hsame := (h store).reset hs
    simp only [serve]
    generalize (src' store).reset s' = x' at hsame ⊢
    generalize (src store).reset s = x at hsame ⊢
    cases hsame with
    | ok hs => exact ⟨rfl, hs⟩
    | error _ hs => exact ⟨rfl, hs⟩
  | dump store accept b =>
    have hrun : ((src' store).drain accept b s').1 = ((src store).drain accept b s).1 ∧ True ∧
        (∀ e, ((src store).drain accept b s).1.2 = some e → True) ∧
        R ((src' store).drain accept b s').2 ((src store).drain accept b s).2 :=
      (h store).drain (I := fun _ => True) (fun _ _ => trivial) (fun _ _ _ _ => trivial)
        (fun _ _ _ _ _ _ => trivial) trivial hs
    obtain ⟨houtcome, -, -, hend⟩ := hrun
    refine ⟨?_, hend⟩
    simp only [serve, Prod.map, houtcome]

theorem Request.serveAll_lockstep (h : ∀ store, (src' store).Lockstep (src store) R T E)
    (rs : List Request) (hs : R s' s) :
    (serveAll src' rs s').1 = (serveAll src rs s).1 ∧
      R (serveAll src' rs s').2 (serveAll src rs s).2 := by
  induction rs generalizing s' s with
  | nil => exact ⟨rfl, hs⟩
  | cons r rs ih =>
    obtain ⟨hreply, hnext⟩ := serve_lockstep h r hs
    obtain ⟨hreplies, hend⟩ := ih hnext
    refine ⟨?_, hend⟩
    simp only [serveAll, hreply, hreplies]

end Lockstep

/-! ## Records -/

namespace Plan

/-- The states of a recorded plan: every operator has its record. -/
def RecordState : Plan → Type
  | scan .. => ScanState × List Pull
  | rows .. => List Tuple × List Pull
  | select child _ => child.RecordState × List Pull
  | join outer inner _ => JoinState outer.RecordState inner.RecordState × List Pull
  | project child _ => (child.RecordState × List Tuple) × List Pull
  | sum child _ => (child.RecordState × Option (List Tuple)) × List Pull

/-- A plan all of whose operators keep records. -/
def recorded (store : Storage) : (p : Plan) → Source p.RecordState
  | scan relation path _ => (Source.scan store relation path).recorded
  | rows _ tuples => (Source.rows tuples).recorded
  | select child predicates =>
    ((child.recorded store).filter (accepts child.schema predicates)).recorded
  | join outer inner conditions =>
    ((outer.recorded store).join (inner.recorded store) (pairs conditions)).recorded
  | project child targets => ((child.recorded store).distinct (targets.map Prod.snd)).recorded
  | sum child spec => ((child.recorded store).sum spec).recorded

/-- A state of a plan with empty records. -/
def unrecorded : (p : Plan) → p.State → p.RecordState
  | scan .., s => (s, [])
  | rows .., s => (s, [])
  | select child _, s => (child.unrecorded s, [])
  | join outer inner _, s =>
    (⟨outer.unrecorded s.outer, inner.unrecorded s.inner, s.phase⟩, [])
  | project child _, s => ((child.unrecorded s.1, s.2), [])
  | sum child _, s => ((child.unrecorded s.1, s.2), [])

/-- The operators of a plan with their records, from the top down. -/
def records : (p : Plan) → p.RecordState → List (Plan × List Pull)
  | scan relation path atom, (_, record) => [(scan relation path atom, record)]
  | rows atom tuples, (_, record) => [(rows atom tuples, record)]
  | select child predicates, (s, record) => (select child predicates, record) :: child.records s
  | join outer inner conditions, (s, record) =>
    (join outer inner conditions, record) :: (outer.records s.outer ++ inner.records s.inner)
  | project child targets, (s, record) => (project child targets, record) :: child.records s.1
  | sum child spec, (s, record) => (sum child spec, record) :: child.records s.1

end Plan

namespace Machine

/-- The replies of a machine to requests. -/
def replies (m : Machine) (requests : List Request) : List Reply :=
  (Request.serveAll (fun store => m.plan.source store) requests m.state).1

theorem replies_dump {store : Storage} {m : Machine} {o : Yield} (h : m.Replays store o)
    {β : Type} (accept : β → Tuple → β × Option EvalError) (b : β) :
    m.replies [.dump store accept b] = [.dumped (o.drain accept b).1 (o.drain accept b).2] := by
  have hdrain := (m.plan.source store).drain_eq_yields accept b m.state
  rw [h.yields_eq] at hdrain
  rw [← hdrain]
  rfl

/-- The replies of a machine that keeps records. -/
def recordedReplies (m : Machine) (requests : List Request) : List Reply :=
  (Request.serveAll (fun store => m.plan.recorded store) requests (m.plan.unrecorded m.state)).1

/-- The operators of a machine, with what they have put down once requests have been served. -/
def records (m : Machine) (requests : List Request) : List (Plan × List Pull) :=
  m.plan.records
    (Request.serveAll (fun store => m.plan.recorded store) requests (m.plan.unrecorded m.state)).2

end Machine

end Conjunct
