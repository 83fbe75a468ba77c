import Conjunct.Plan
import Conjunct.Source.Filter
import Conjunct.Source.Join
import Conjunct.Source.Scan

/-!
# Running plans

Every plan has a type of states and is a source of tuples on them (`Plan.source`). A machine is a
plan in one of its states. Machines are put together from the leaves up: a scan opens its file when
it is made, and an operator on top of others is made once they are.
-/

namespace Conjunct

namespace Plan

/-! ## Plans as sources -/

/-- The states of a plan. -/
def State : Plan → Type
  | scan .. => ScanState
  | rows .. => List Tuple
  | select child _ => child.State
  | join outer inner _ => JoinState outer.State inner.State
  | project child _ => child.State × List Tuple
  | sum child _ => child.State × Option (List Tuple)

/-- Whether a selection lets a tuple pass. -/
def accepts (schema : Atom) (predicates : List Predicate) (t : Tuple) : Bool :=
  schema.admits t && predicates.all (·.holds t)

/-- Whether a join pairs two tuples. -/
def pairs (conditions : List JoinCondition) (t u : Tuple) : Bool :=
  conditions.all (·.holds t u)

/-- The source that a plan describes, over the files of a storage. -/
def source (store : Storage) : (p : Plan) → Source p.State
  | scan relation path _ => Source.scan store relation path
  | rows _ tuples => Source.rows tuples
  | select child predicates => (child.source store).filter (accepts child.schema predicates)
  | join outer inner conditions =>
    (outer.source store).join (inner.source store) (pairs conditions)
  | project child targets => (child.source store).distinct (targets.map Prod.snd)
  | sum child spec => (child.source store).sum spec

end Plan

/-! ## Machines -/

/-- A plan under way. -/
structure Machine where
  plan : Plan
  state : plan.State

namespace Machine

/-- The schema of a machine's tuples. -/
def schema (m : Machine) : Atom :=
  m.plan.schema

/-- A scan, with its file open. -/
def scan (store : Storage) (relation : Relation) (path : Path) (atom : Atom) :
    Except EvalError Machine :=
  (Source.openScan store path).map fun s => ⟨.scan relation path atom, s⟩

/-- The given rows. -/
def rows (atom : Atom) (tuples : List Tuple) : Machine :=
  ⟨.rows atom tuples, tuples⟩

/-- A selection. -/
def select (child : Machine) (conditions : List Comparison) : Except EvalError Machine :=
  (Plan.selectionPredicates child.schema conditions).map fun predicates =>
    ⟨.select child.plan predicates, child.state⟩

/-- A join. -/
def join (outer inner : Machine) (conditions : List Comparison) : Machine :=
  ⟨.join outer.plan inner.plan (Plan.joinConditions outer.schema inner.schema conditions),
    ⟨outer.state, inner.state, .fresh⟩⟩

/-- A projection. -/
def project (child : Machine) (targets : List Variable) : Except EvalError Machine :=
  (targets.mapM (Plan.locate child.schema)).map fun targets =>
    ⟨.project child.plan targets, (child.state, [])⟩

/-- A sum. -/
def sum (child : Machine) (group : List Variable) (aggregate : Aggregate) :
    Except EvalError Machine :=
  (Plan.resolveSum child.schema group aggregate).map fun spec =>
    ⟨.sum child.plan spec, (child.state, none)⟩

/-! ## Pulling -/

/-- Ask for the next tuple. -/
def pull (store : Storage) (m : Machine) : Pull × Machine :=
  let (answer, s) := (m.plan.source store).pull m.state
  (answer, ⟨m.plan, s⟩)

/-- Start again. -/
def reset (store : Storage) (m : Machine) : Except EvalError Unit × Machine :=
  let (outcome, s) := (m.plan.source store).reset m.state
  (outcome, ⟨m.plan, s⟩)

/-- Pass all tuples on, up to the first that is refused and up to the first error. -/
def drain {β : Type} (store : Storage) (accept : β → Tuple → β × Option EvalError) (b : β)
    (m : Machine) : (β × Option EvalError) × Machine :=
  let (outcome, s) := (m.plan.source store).drain accept b m.state
  (outcome, ⟨m.plan, s⟩)

/-- Collect all tuples, up to the first error if there is one. -/
def collect (store : Storage) (m : Machine) : (List Tuple × Option EvalError) × Machine :=
  let (outcome, s) := (m.plan.source store).collect m.state
  (outcome, ⟨m.plan, s⟩)

end Machine

end Conjunct
