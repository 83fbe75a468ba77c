import Conjunct.Term

/-!
# Comparisons

A comparison relates two terms by one of six comparators. Between constants of different kinds no
comparator holds, not even `≠`; between constants of one kind each holds according to their order.

**Theorem (`Comparator.holds_converse`).** Exchanging the sides of a comparison and taking the
converse of its comparator does not change whether it holds.
-/

namespace Conjunct

/-! ## Comparators -/

/-- The relations that a comparison can state. -/
inductive Comparator where
  | eq
  | ne
  | lt
  | le
  | gt
  | ge
  deriving DecidableEq

namespace Comparator

/-- The written form of a comparator. -/
def symbol : Comparator → String
  | eq => "="
  | ne => "!="
  | lt => "<"
  | le => "<="
  | gt => ">"
  | ge => ">="

/-- The comparator that states the same of the exchanged sides. -/
def converse : Comparator → Comparator
  | eq => eq
  | ne => ne
  | lt => gt
  | le => ge
  | gt => lt
  | ge => le

/-- Whether a comparator allows the given order of its sides. -/
def allows : Comparator → Ordering → Bool
  | eq, o => o.isEq
  | ne, o => o.isNe
  | lt, o => o.isLT
  | le, o => o.isLE
  | gt, o => o.isGT
  | ge, o => o.isGE

/-- Whether a comparator holds between two constants. -/
def holds (op : Comparator) (left right : Constant) : Bool :=
  (left.compare? right).any op.allows

theorem converse_converse (op : Comparator) : op.converse.converse = op := by
  cases op <;> rfl

theorem allows_converse (op : Comparator) (o : Ordering) :
    op.converse.allows o.swap = op.allows o := by
  cases op <;> cases o <;> rfl

end Comparator

theorem Constant.compare?_swap (a b : Constant) :
    compare? b a = (compare? a b).map Ordering.swap := by
  cases a <;> cases b
  case integer.integer m n => exact congrArg some Std.OrientedOrd.eq_swap
  case string.string s t => exact congrArg some Std.OrientedOrd.eq_swap
  all_goals rfl

theorem Comparator.holds_converse (op : Comparator) (left right : Constant) :
    op.converse.holds right left = op.holds left right := by
  rw [holds, holds, Constant.compare?_swap left right]
  cases left.compare? right <;> simp [allows_converse]

/-! ## Comparisons -/

/-- A comparator between two terms. -/
structure Comparison where
  left : Term
  op : Comparator
  right : Term
  deriving DecidableEq

namespace Comparison

/-- The comparison that states the same with its sides exchanged. -/
def converse (c : Comparison) : Comparison :=
  ⟨c.right, c.op.converse, c.left⟩

/-- The variables of a comparison, each once. -/
def vars (c : Comparison) : List Variable :=
  Term.variablesOf [c.left, c.right]

/-- Whether both sides are constants. -/
def isGround (c : Comparison) : Bool :=
  c.left.isConst && c.right.isConst

/-- The text of a comparison. -/
def render (c : Comparison) : String :=
  c.left.render ++ " " ++ c.op.symbol ++ " " ++ c.right.render

theorem converse_converse (c : Comparison) : c.converse.converse = c := by
  simp [converse, Comparator.converse_converse]

end Comparison

end Conjunct
