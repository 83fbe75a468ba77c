import Conjunct.Atom
import Conjunct.Comparison
import Conjunct.Tuple

/-!
# Predicates on tuples

A schema fixes which variable stands at which position of a tuple. A comparison whose variables
all have a position becomes a *predicate* on single tuples; one that relates a variable of one
schema to a variable of another becomes a *condition* on pairs of tuples. Both look fields up by
position, and a field that a tuple does not have satisfies nothing.

A schema is itself a requirement (`Atom.admits`): a position with a constant holds that constant,
and all positions of a variable hold the same value.
-/

namespace Conjunct

/-! ## Schemas as requirements -/

namespace Tuple

/-- Whether a comparator holds between two fields that may be missing. -/
def holdsAt (op : Comparator) : Option Constant → Option Constant → Bool
  | some left, some right => op.holds left right
  | _, _ => false

end Tuple

namespace Atom

/-- Whether a tuple agrees at one position with the term that stands there. -/
def admitsAt (schema : Atom) (t : Tuple) (position : Nat) : Term → Bool
  | .const c => Tuple.holdsAt .eq t[position]? (some c)
  | .var v =>
    match schema.position? v with
    | none => true
    | some first => first == position || Tuple.holdsAt .eq t[first]? t[position]?

/-- Whether a tuple agrees with the constants and the repeated variables of its schema. -/
def admits (schema : Atom) (t : Tuple) : Bool :=
  schema.terms.zipIdx.all fun (term, position) => schema.admitsAt t position term

end Atom

/-! ## Predicates on one tuple -/

/-- Where a side of a predicate takes its value from. -/
inductive Operand where
  | field (position : Nat)
  | value (c : Constant)
  deriving DecidableEq

namespace Operand

/-- The operand for a term: a constant stands for itself, a variable for its first position. -/
def ofTerm? (schema : Atom) : Term → Option Operand
  | .const c => some (value c)
  | .var v => (schema.position? v).map field

/-- The value of an operand. -/
def value? (t : Tuple) : Operand → Option Constant
  | field position => t[position]?
  | value c => some c

end Operand

/-- A comparison whose sides are resolved against a schema. -/
structure Predicate where
  source : Comparison
  left : Operand
  right : Operand
  deriving DecidableEq

namespace Predicate

/-- Resolve both sides of a comparison. -/
def bind? (schema : Atom) (c : Comparison) : Option Predicate := do
  return ⟨c, ← Operand.ofTerm? schema c.left, ← Operand.ofTerm? schema c.right⟩

/-- Whether a tuple satisfies a predicate. -/
def holds (p : Predicate) (t : Tuple) : Bool :=
  Tuple.holdsAt p.source.op (p.left.value? t) (p.right.value? t)

/-- The text of a predicate. -/
def render (p : Predicate) : String :=
  p.source.render

end Predicate

/-! ## Conditions on two tuples -/

/-- A comparison between a field of an outer and a field of an inner tuple. The comparison is
turned so that its left side is the outer one. -/
structure JoinCondition where
  source : Comparison
  outer : Nat
  inner : Nat
  deriving DecidableEq

namespace JoinCondition

/-- Resolve a comparison of two variables as it stands: its left side in the outer schema, its
right side in the inner one. -/
def resolve? (outer inner : Atom) (c : Comparison) : Option JoinCondition :=
  match c.left, c.right with
  | .var v, .var w => do
    return ⟨c, ← outer.position? v, ← inner.position? w⟩
  | _, _ => none

/-- Resolve a comparison of two variables as it stands, or else its converse. -/
def bind? (outer inner : Atom) (c : Comparison) : Option JoinCondition :=
  (resolve? outer inner c).or (resolve? outer inner c.converse)

/-- The condition that two schemas agree on a variable that occurs in both. -/
def shared? (outer inner : Atom) (v : Variable) : Option JoinCondition :=
  resolve? outer inner ⟨.var v, .eq, .var v⟩

/-- Whether two tuples satisfy a condition. -/
def holds (p : JoinCondition) (outer inner : Tuple) : Bool :=
  Tuple.holdsAt p.source.op outer[p.outer]? inner[p.inner]?

/-- The text of a condition. -/
def render (p : JoinCondition) : String :=
  p.source.render

end JoinCondition

end Conjunct
