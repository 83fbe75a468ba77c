import Conjunct.Minimize
import Conjunct.Plan.OfQuery
import Conjunct.Query.Reader

/-!
# Failures

A command goes through stages, and its failure names the stage: the settings, the text of the
query, the schema, the plan, the evaluation, the minimization, or the output.
-/

namespace Conjunct

/-- The failure of a command. -/
inductive Failure where
  | config (message : String)
  | parse (e : Query.ReadError)
  | catalog (e : CatalogError)
  | plan (e : PlanError)
  | execute (e : EvalError)
  | minimize (e : Query.MinimizeError)
  /-- A file cannot be written. -/
  | output (path reason : String)
  deriving DecidableEq

namespace Failure

/-- The name of the stage that failed. -/
def stage : Failure → String
  | config _ => "config"
  | parse _ => "parse"
  | catalog _ => "catalog"
  | plan _ => "plan"
  | execute _ => "execute"
  | minimize _ => "minimize"
  | output .. => "io"

/-- What happened, in words. -/
def reason : Failure → String
  | config message => message
  | parse e => e.message
  | catalog e => e.render
  | plan e => e.render
  | execute e => e.render
  | minimize e => e.message
  | output path reason => path ++ ": " ++ reason

/-- The text of a failure. -/
def message (f : Failure) : String :=
  f.stage ++ " stage failed: " ++ f.reason

end Failure

end Conjunct
