import Conjunct.Catalog
import Conjunct.Plan.Machine

/-!
# Planning queries

A query becomes a plan in four steps.

* It is checked: there is an atom, every atom fits a declared relation, and every variable of the
  head and of a comparison occurs in an atom.
* Each atom becomes a *leaf*, a scan of its relation. A leaf selects if the atom has a constant or
  a repeated variable, or if a comparison can be decided on it alone. Comparisons without variables
  are decided on the first leaf.
* The leaves are joined from left to right. Each remaining comparison is applied by the first join
  that brings its two variables together.
* A projection to the head's variables, or the head's sum, goes on top.

Without a sum, both sides of a join are first narrowed to the variables that are still needed. With
a sum they are not, since narrowing removes duplicates and a sum counts them.
-/

namespace Conjunct

/-! ## Errors -/

/-- The reasons for which a query has no plan. -/
inductive PlanError where
  | unknownRelation (name : String)
  | arityMismatch (name : String) (declared used : Nat)
  | unboundVariable (name context : String)
  | emptyBody
  /-- An operator could not be made. -/
  | operatorFailed (operator : String) (cause : EvalError)
  deriving DecidableEq

namespace PlanError

/-- The stable code of an error. -/
def code : PlanError → String
  | unknownRelation .. => "MINIBASE_PLAN_UNKNOWN_RELATION"
  | arityMismatch .. => "MINIBASE_PLAN_ARITY_MISMATCH"
  | unboundVariable .. => "MINIBASE_PLAN_UNBOUND_VARIABLE"
  | emptyBody => "MINIBASE_PLAN_EMPTY_BODY"
  | operatorFailed .. => "MINIBASE_PLAN_OPERATOR_FAILED"

/-- What a query with an error comes to: it is turned away. -/
def severity : String := "REJECT"

/-- The relation that an error is about. -/
def relation? : PlanError → Option String
  | unknownRelation name | arityMismatch name _ _ => some name
  | _ => none

/-- The error of evaluation behind an error. -/
def cause? : PlanError → Option EvalError
  | operatorFailed _ cause => some cause
  | _ => none

/-- What happened, in words. -/
def message : PlanError → String
  | unknownRelation name => "Relation '" ++ name ++ "' is not declared in the schema"
  | arityMismatch name declared used =>
    "Relation '" ++ name ++ "' declares " ++ toString declared ++
      " columns but is used with " ++ toString used ++ " terms"
  | unboundVariable name context =>
    "Variable '" ++ name ++ "' in " ++ context ++ " is not bound by any relational atom"
  | emptyBody => "Query body contains no relational atom"
  | operatorFailed operator _ => "Cannot build " ++ operator

/-- The full text of an error: its code, what happened, and the cause if there is one. -/
def render (e : PlanError) : String :=
  let cause := match e.cause? with
    | some cause => " (caused by: " ++ cause.render ++ ")"
    | none => ""
  "[" ++ severity ++ "] " ++ e.code ++ ": " ++ e.message ++ cause

end PlanError

namespace Query

/-! ## Checking -/

/-- The variables that occur in the atoms of a body. -/
def boundVariables (q : Query) : List Variable :=
  q.atoms.flatMap Atom.vars

/-- What keeps an atom from being read from the declared relations. -/
def atomFault? (catalog : Catalog) (a : Atom) : Option PlanError :=
  match catalog.relation? a.relation with
  | none => some (.unknownRelation a.relation)
  | some r => if r.arity = a.arity then none else some (.arityMismatch a.relation r.arity a.arity)

/-- The first variable that occurs in no atom, as an error; `context` says where it stands. -/
def unboundFault? (q : Query) (context : String) (vs : List Variable) : Option PlanError :=
  (vs.find? (· ∉ q.boundVariables)).map fun v => .unboundVariable v.name context

/-- What keeps the head from being computed: a variable, or one under the sum, occurs in no atom. -/
def headFault? (q : Query) : Option PlanError :=
  (q.unboundFault? "head" q.head.outputs).or
    (q.head.sum?.bind fun s => q.unboundFault? s.render s.vars)

/-- What keeps a comparison from being decided: a variable occurs in no atom. -/
def comparisonFault? (q : Query) (c : Comparison) : Option PlanError :=
  q.unboundFault? ("'" ++ c.render ++ "'") c.vars

/-- The first fault of a query: in its body as a whole, in an atom, in the head, in a comparison. -/
def fault? (catalog : Catalog) (q : Query) : Option PlanError :=
  if q.atoms = [] then some .emptyBody
  else
    (q.atoms.findSome? (atomFault? catalog)).or
      (q.headFault?.or (q.comparisons.findSome? q.comparisonFault?))

/-! ## Placing comparisons -/

/-- Whether all variables of a comparison occur in an atom. -/
def decidedBy (c : Comparison) (a : Atom) : Bool :=
  c.vars.all a.mentions

/-- The comparisons that are decided on the leaf of the atom at a position. -/
def selectionsAt (q : Query) (position : Nat) (a : Atom) : List Comparison :=
  q.comparisons.filter fun c => if c.isGround then position == 0 else decidedBy c a

/-- The comparisons that no leaf decides. -/
def joinComparisons (q : Query) : List Comparison :=
  q.comparisons.filter fun c => !c.isGround && !q.atoms.any (decidedBy c)

/-! ## Leaves -/

/-- The leaf for an atom. -/
def leaf (store : Storage) (catalog : Catalog) (a : Atom) (selections : List Comparison) :
    Except PlanError Machine :=
  match catalog.relation? a.relation with
  | none => .error (.unknownRelation a.relation)
  | some r => do
    let scan ← (Machine.scan store r (catalog.relationPath a.relation) a).mapError
      (.operatorFailed ("Scan " ++ a.render))
    if a.hasConstant ∨ a.hasRepeatedVariable ∨ selections ≠ [] then
      (scan.select selections).mapError (.operatorFailed ("Select " ++ a.render))
    else
      .ok scan

/-- The leaves of a query, in the order of its atoms. -/
def leaves (store : Storage) (catalog : Catalog) (q : Query) : Except PlanError (List Machine) :=
  q.atoms.zipIdx.mapM fun (a, position) => leaf store catalog a (q.selectionsAt position a)

/-! ## Joining -/

/-- Reduce a machine to the variables that are needed. A machine that has exactly one position for
each needed variable, and no other position, is left alone. -/
def narrow (needed : Variable → Bool) (m : Machine) : Except PlanError Machine :=
  let targets := m.schema.vars.filter needed
  if targets.length = m.schema.arity then .ok m
  else (m.project targets).mapError (.operatorFailed "pushed-down Project")

/-- Whether a variable is needed once two machines have been joined, or for joining them: by the
head, by a comparison that is not decided yet, by the join, or by a later leaf. -/
def needed (q : Query) (pending : List Comparison) (outer inner : Machine) (later : List Machine)
    (v : Variable) : Bool :=
  q.head.outputs.contains v || pending.any (·.vars.contains v) ||
    (outer.schema.mentions v && inner.schema.mentions v) || later.any (·.schema.mentions v)

/-- The two sides of a join, narrowed to what is needed unless the head has a sum. -/
def joinSides (q : Query) (pending : List Comparison) (outer inner : Machine)
    (later : List Machine) : Except PlanError (Machine × Machine) :=
  if q.head.sum?.isSome then .ok (outer, inner)
  else do
    let needed := q.needed pending outer inner later
    let outer ← narrow needed outer
    let inner ← narrow needed inner
    .ok (outer, inner)

/-- Join a machine with the leaves that follow it. -/
def joinLeaves (q : Query) (outer : Machine) (pending : List Comparison) :
    List Machine → Except PlanError Machine
  | [] => .ok outer
  | inner :: later => do
    let applies (c : Comparison) := (JoinCondition.bind? outer.schema inner.schema c).isSome
    let (applied, remaining) := pending.partition applies
    let (outer, inner) ← q.joinSides pending outer inner later
    joinLeaves q (outer.join inner applied) remaining later

/-! ## Plans -/

/-- Put what the head asks for on top of the joined leaves. -/
def finish (q : Query) (m : Machine) : Except PlanError Machine :=
  match q.head.sum? with
  | some s => (m.sum q.head.outputs s).mapError (.operatorFailed ("Sum " ++ s.render))
  | none => (m.project q.head.outputs).mapError (.operatorFailed "root Project")

/-- Plan a query over the relations of a catalog, and open their files. -/
def plan (store : Storage) (catalog : Catalog) (q : Query) : Except PlanError Machine :=
  match q.fault? catalog with
  | some e => .error e
  | none => do
    match ← q.leaves store catalog with
    | [] => .error .emptyBody
    | first :: later =>
      let joined ← q.joinLeaves first q.joinComparisons later
      q.finish joined

end Query

end Conjunct
