import Conjunct.Predicate
import Conjunct.Source.Sum
import Conjunct.Storage.Path
import Conjunct.Relation

/-!
# Plans

A plan is a tree of operators over relations. It says how a stream of tuples is made, and its
schema says which variable stands where in those tuples. All variables are resolved to positions
when a plan is put together, so running it looks fields up by position only.

Every operator has a label, the line that stands for it in an outline of the plan.
-/

namespace Conjunct

/-- A tree of operators. -/
inductive Plan where
  /-- The tuples in the file of a relation. -/
  | scan (relation : Relation) (path : Path) (atom : Atom)
  /-- The given tuples. -/
  | rows (atom : Atom) (tuples : List Tuple)
  /-- The tuples that agree with the schema and satisfy some predicates. -/
  | select (child : Plan) (predicates : List Predicate)
  /-- The pairs of tuples that satisfy some conditions. -/
  | join (outer inner : Plan) (conditions : List JoinCondition)
  /-- The distinct values of some variables, with their positions. -/
  | project (child : Plan) (targets : List (Variable × Nat))
  /-- The sums of a product over groups of tuples. -/
  | sum (child : Plan) (spec : SumSpec)

namespace Plan

/-! ## Schemas and labels -/

/-- Which terms stand for the fields of a plan's tuples. -/
def schema : Plan → Atom
  | scan _ _ atom => atom
  | rows atom _ => atom
  | select child _ => child.schema
  | join outer inner _ => ⟨"Join", outer.schema.terms ++ inner.schema.terms⟩
  | project _ targets => ⟨"Project", targets.map (.var ·.1)⟩
  | sum _ spec => spec.schema

/-- A list between square brackets. -/
def bracketed (items : List String) : String :=
  "[" ++ Text.joined ", " items ++ "]"

/-- The line that stands for the topmost operator. -/
def label : Plan → String
  | scan _ _ atom => "Scan " ++ atom.render
  | rows atom _ => "Rows " ++ atom.render
  | select child [] => "Select " ++ child.schema.render
  | select child predicates =>
    "Select " ++ child.schema.render ++ " " ++ bracketed (predicates.map Predicate.render)
  | join _ _ [] => "Join cartesian"
  | join _ _ conditions => "Join on " ++ Text.joined " and " (conditions.map JoinCondition.render)
  | project _ targets => "Project " ++ bracketed (targets.map (·.1.name))
  | sum _ spec =>
    match spec.group with
    | [] => "Sum " ++ spec.aggregate.render
    | group => "Sum " ++ spec.aggregate.render ++ " group by " ++ bracketed (group.map (·.1.name))

/-! ## Resolving variables -/

/-- Resolve the conditions of a selection. A condition without any of its variables in the schema
is passed over; any other has to resolve completely. -/
def selectionPredicates (schema : Atom) : List Comparison → Except EvalError (List Predicate)
  | [] => .ok []
  | c :: cs =>
    if c.vars ≠ [] ∧ ∀ v ∈ c.vars, schema.mentions v = false then
      selectionPredicates schema cs
    else
      match Predicate.bind? schema c with
      | none => .error (.termUnresolved c.render schema.render)
      | some p => (selectionPredicates schema cs).map (p :: ·)

/-- Resolve the conditions of a join: those given, as far as they relate the two schemas, and the
agreement on every variable that occurs in both. -/
def joinConditions (outer inner : Atom) (cs : List Comparison) : List JoinCondition :=
  cs.filterMap (JoinCondition.bind? outer inner) ++
    outer.vars.filterMap (JoinCondition.shared? outer inner)

/-- The position of a variable that has to occur in a schema. -/
def locate (schema : Atom) (v : Variable) : Except EvalError (Variable × Nat) :=
  match schema.position? v with
  | some position => .ok (v, position)
  | none => .error (.termUnresolved v.name schema.render)

/-- Resolve a factor of a sum. -/
def resolveFactor (schema : Atom) : Term → Except EvalError Factor
  | .var v => (locate schema v).map fun (v, position) => .field position (.var v)
  | .const (.integer n) => .ok (.literal n)
  | .const (.string s) =>
    .error (.aggregateNotInteger (Constant.string s).render Kind.string.name)

/-- Resolve a sum: its group first, then its factors. -/
def resolveSum (schema : Atom) (group : List Variable) (aggregate : Aggregate) :
    Except EvalError SumSpec := do
  let group ← group.mapM (locate schema)
  let factors ← aggregate.factors.mapM (resolveFactor schema)
  return ⟨aggregate, group, factors⟩

end Plan

end Conjunct
