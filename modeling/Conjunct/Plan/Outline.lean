import Conjunct.Plan

/-!
# Outlines of plans

An outline lists the operators of a plan from the top down, each above those it draws from and one
level further in, under the text of the query that the plan answers.
-/

namespace Conjunct

namespace Plan

/-- The labels of a plan's operators with their depths, from the given depth on. -/
def outlineFrom (depth : Nat) : Plan → List (Nat × String)
  | p@(scan ..) => [(depth, p.label)]
  | p@(rows ..) => [(depth, p.label)]
  | p@(select child _) => (depth, p.label) :: child.outlineFrom (depth + 1)
  | p@(join outer inner _) =>
    (depth, p.label) :: (outer.outlineFrom (depth + 1) ++ inner.outlineFrom (depth + 1))
  | p@(project child _) => (depth, p.label) :: child.outlineFrom (depth + 1)
  | p@(sum child _) => (depth, p.label) :: child.outlineFrom (depth + 1)

end Plan

/-- A query with the operators of its plan. -/
structure Outline where
  query : String
  operators : List (Nat × String)

namespace Outline

/-- The outline of a plan. -/
def ofPlan (q : Query) (p : Plan) : Outline :=
  ⟨q.render, p.outlineFrom 0⟩

/-- The line for an operator: two blanks for each level, and its label. -/
def operatorLine : Nat × String → String
  | (depth, label) => String.ofList (List.replicate (2 * (depth + 1)) ' ') ++ label ++ "\n"

/-- The text of an outline. -/
def render (o : Outline) : String :=
  "=== EXPLAIN PLAN ===\n" ++ "Query: " ++ o.query ++ "\n" ++ "Operators:\n" ++
    Text.joined "" (o.operators.map operatorLine)

end Outline

end Conjunct
