import Conjunct.Atom
import Conjunct.Comparison

/-!
# Queries

A query is a rule: a head says which values are asked for, and a body of literals says what they
have to satisfy. A literal is an atom or a comparison. A head lists variables and may add one
aggregate, the sum of a product of terms over all the ways to satisfy the body.

The variables that a head refers to are *distinguished*: they keep their meaning outside the body.
-/

namespace Conjunct

/-! ## Heads -/

/-- The sum of the product of some terms. -/
structure Aggregate where
  factors : List Term
  deriving DecidableEq

namespace Aggregate

/-- The variables among the factors, each once. -/
def vars (s : Aggregate) : List Variable :=
  Term.variablesOf s.factors

/-- The text of an aggregate. -/
def render (s : Aggregate) : String :=
  "SUM(" ++ Term.renderAll " * " s.factors ++ ")"

end Aggregate

/-- What a query asks for. -/
structure Head where
  name : String
  outputs : List Variable
  sum? : Option Aggregate
  deriving DecidableEq

namespace Head

/-- The variables of the aggregate, if there is one. -/
def sumVariables (h : Head) : List Variable :=
  match h.sum? with
  | some s => s.vars
  | none => []

/-- The variables that a head refers to, each once, in the order of first occurrence. -/
def distinguished (h : Head) : List Variable :=
  (h.outputs ++ h.sumVariables).eraseDups

/-- The text of a head: its variables, then its aggregate. -/
def render (h : Head) : String :=
  let items := h.outputs.map Variable.name ++ (h.sum?.map Aggregate.render).toList
  h.name ++ "(" ++ Text.joined ", " items ++ ")"

end Head

/-! ## Bodies -/

/-- A condition in a body. -/
inductive Literal where
  | atom (a : Atom)
  | comparison (c : Comparison)
  deriving DecidableEq

namespace Literal

/-- The atom that a literal is. -/
def atom? : Literal → Option Atom
  | atom a => some a
  | comparison _ => none

/-- The comparison that a literal is. -/
def comparison? : Literal → Option Comparison
  | atom _ => none
  | comparison c => some c

/-- The text of a literal. -/
def render : Literal → String
  | atom a => a.render
  | comparison c => c.render

end Literal

/-! ## Queries -/

/-- A conjunctive query. -/
structure Query where
  head : Head
  body : List Literal
  deriving DecidableEq

namespace Query

/-- The atoms of a body, in order. -/
def atoms (q : Query) : List Atom :=
  q.body.filterMap Literal.atom?

/-- The comparisons of a body, in order. -/
def comparisons (q : Query) : List Comparison :=
  q.body.filterMap Literal.comparison?

/-- The query without the literal at a position; a position outside the body takes nothing
away. -/
def without (q : Query) (position : Nat) : Query :=
  ⟨q.head, q.body.eraseIdx position⟩

/-- The text of a query. -/
def render (q : Query) : String :=
  q.head.render ++ " :- " ++ Text.joined ", " (q.body.map Literal.render)

theorem length_without {q : Query} {position : Nat} (h : position < q.body.length) :
    (q.without position).body.length + 1 = q.body.length := by
  simp only [without, List.length_eraseIdx_of_lt h]
  omega

end Query

end Conjunct
