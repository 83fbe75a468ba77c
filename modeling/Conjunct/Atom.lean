import Conjunct.Term

/-!
# Atoms

An atom is the name of a relation applied to a list of terms. It does two jobs: in a query it
states that a tuple of the relation matches the terms, and in a plan it is the *schema* of a
stream of tuples, saying which position holds the value of which variable.
-/

namespace Conjunct

/-- A relation applied to terms. -/
structure Atom where
  relation : String
  terms : List Term
  deriving DecidableEq

namespace Atom

/-- The number of positions. -/
def arity (a : Atom) : Nat :=
  a.terms.length

/-- The first position that holds a variable. -/
def position? (a : Atom) (v : Variable) : Option Nat :=
  a.terms.idxOf? (.var v)

/-- Whether a variable occurs in an atom. -/
def mentions (a : Atom) (v : Variable) : Bool :=
  (a.position? v).isSome

/-- The variables of an atom, each once, in the order of first occurrence. -/
def vars (a : Atom) : List Variable :=
  Term.variablesOf a.terms

/-- Whether some position holds a constant. -/
def hasConstant (a : Atom) : Bool :=
  a.terms.any Term.isConst

/-- Whether some variable stands in two positions. -/
def hasRepeatedVariable (a : Atom) : Bool :=
  (a.terms.filterMap Term.var?).length ≠ a.vars.length

/-- The text of an atom. -/
def render (a : Atom) : String :=
  a.relation ++ "(" ++ Term.renderAll ", " a.terms ++ ")"

end Atom

end Conjunct
