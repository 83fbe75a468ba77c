import Conjunct.Constant
import Conjunct.Text.Blank

/-!
# Terms

A term is a variable or a constant. Lists of terms are read for the variables in them, each once
and in the order of their first occurrence (`Term.variablesOf`).
-/

namespace Conjunct

/-- A variable, known by its name. -/
structure Variable where
  name : String
  deriving DecidableEq

/-- What stands in a position of an atom or on a side of a comparison. -/
inductive Term where
  | var (v : Variable)
  | const (c : Constant)
  deriving DecidableEq

namespace Term

/-- The variable that a term is. -/
def var? : Term → Option Variable
  | var v => some v
  | const _ => none

/-- Whether a term is a constant. -/
def isConst : Term → Bool
  | var _ => false
  | const _ => true

/-- The text of a term. -/
def render : Term → String
  | var v => v.name
  | const c => c.render

/-- The variables of a list of terms, each once, in the order of first occurrence. -/
def variablesOf (terms : List Term) : List Variable :=
  (terms.filterMap var?).eraseDups

/-- The text of a list of terms, with a separator between neighbours. -/
def renderAll (sep : String) (terms : List Term) : String :=
  Text.joined sep (terms.map render)

end Term

end Conjunct
