import Conjunct.Atom
import Conjunct.Catalog
import Conjunct.Command.Arguments
import Conjunct.Command.Failure
import Conjunct.Command.Manual
import Conjunct.Command.Program
import Conjunct.Command.Session
import Conjunct.Command.Settings
import Conjunct.Comparison
import Conjunct.Constant
import Conjunct.EvalError
import Conjunct.Json.Quoted
import Conjunct.Json.Reader
import Conjunct.Log
import Conjunct.Main
import Conjunct.Minimize
import Conjunct.Plan
import Conjunct.Plan.Machine
import Conjunct.Plan.OfQuery
import Conjunct.Plan.Outline
import Conjunct.Predicate
import Conjunct.Proofs.Answers
import Conjunct.Proofs.Apart
import Conjunct.Proofs.Binding
import Conjunct.Proofs.Columns
import Conjunct.Proofs.Commands
import Conjunct.Proofs.Confinement
import Conjunct.Proofs.Confluence
import Conjunct.Proofs.Core
import Conjunct.Proofs.Edges
import Conjunct.Proofs.Evaluation
import Conjunct.Proofs.Except
import Conjunct.Proofs.Files
import Conjunct.Proofs.FirstSeen
import Conjunct.Proofs.Folding
import Conjunct.Proofs.Frozen
import Conjunct.Proofs.Joining
import Conjunct.Proofs.Labels
import Conjunct.Proofs.Leaves
import Conjunct.Proofs.Leftover
import Conjunct.Proofs.Lines
import Conjunct.Proofs.Lockstep
import Conjunct.Proofs.LogLines
import Conjunct.Proofs.Machine
import Conjunct.Proofs.Matching
import Conjunct.Proofs.Meaning
import Conjunct.Proofs.Minimized
import Conjunct.Proofs.Multiplicity
import Conjunct.Proofs.Narrowing
import Conjunct.Proofs.Opening
import Conjunct.Proofs.Origins
import Conjunct.Proofs.Outlines
import Conjunct.Proofs.Overflow
import Conjunct.Proofs.Overwriting
import Conjunct.Proofs.Quoting
import Conjunct.Proofs.Reading
import Conjunct.Proofs.Recognition
import Conjunct.Proofs.Recording
import Conjunct.Proofs.Refinement
import Conjunct.Proofs.Rescan
import Conjunct.Proofs.Restart
import Conjunct.Proofs.RoundTrip
import Conjunct.Proofs.Schema
import Conjunct.Proofs.Search
import Conjunct.Proofs.Shedding
import Conjunct.Proofs.Solutions
import Conjunct.Proofs.Sorting
import Conjunct.Proofs.Spelling
import Conjunct.Proofs.Stages
import Conjunct.Proofs.Stopping
import Conjunct.Proofs.Table
import Conjunct.Proofs.Tokens
import Conjunct.Proofs.Totals
import Conjunct.Proofs.Validity
import Conjunct.Proofs.Valuation
import Conjunct.Proofs.Yield
import Conjunct.Query
import Conjunct.Query.Grammar
import Conjunct.Query.Reader
import Conjunct.Relation
import Conjunct.Source
import Conjunct.Source.Filter
import Conjunct.Source.Join
import Conjunct.Source.Scan
import Conjunct.Source.Sum
import Conjunct.Storage.Entry
import Conjunct.Storage.Output
import Conjunct.Storage.Path
import Conjunct.Storage.Reader
import Conjunct.Storage.Tree
import Conjunct.Term
import Conjunct.Text.Blank
import Conjunct.Text.Decimal
import Conjunct.Text.Lines
import Conjunct.Text.Parser
import Conjunct.Tuple
