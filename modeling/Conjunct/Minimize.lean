import Conjunct.Query

/-!
# Minimizing queries

An atom of a body is *redundant* if the body can be folded onto the other atoms: if some
substitution for its variables turns the atoms of the body, as a set, into the others. The
substitution leaves distinguished variables alone, and it takes its terms from atoms of the same
relation, since nothing else can match.

Minimizing takes redundant atoms away, one at a time and always the first, until there is none.
A body with comparisons is not minimized.

**Theorem (`Query.firstRedundant?_reduce`).** No atom of a minimized body is redundant.
-/

namespace Conjunct

/-! ## Substitutions -/

/-- Terms for variables; of two terms for one variable the first counts. -/
abbrev Substitution := List (Variable × Term)

/-- Replace a variable that has a term, and nothing else. -/
def Term.substitute (m : Substitution) : Term → Term
  | .var v => (m.lookup v).getD (.var v)
  | .const c => .const c

/-- Replace the variables of an atom. -/
def Atom.substitute (m : Substitution) (a : Atom) : Atom :=
  ⟨a.relation, a.terms.map (Term.substitute m)⟩

/-- Whether two lists of atoms hold the same atoms, in whatever order and number. -/
def Atom.sameSet (xs ys : List Atom) : Bool :=
  xs.all (ys.contains ·) && ys.all (xs.contains ·)

theorem Atom.sameSet_iff (xs ys : List Atom) : sameSet xs ys ↔ ∀ a, a ∈ xs ↔ a ∈ ys := by
  simp only [sameSet, Bool.and_eq_true, List.all_eq_true, List.contains_iff_mem]
  constructor
  · intro ⟨hxy, hyx⟩ a
    exact ⟨hxy a, hyx a⟩
  · intro h
    exact ⟨fun a => (h a).mp, fun a => (h a).mpr⟩

namespace Query

/-! ## Redundant atoms -/

/-- The terms that a variable of an atom may be replaced by: the other terms in those of the given
atoms that are of the same relation. -/
def images (a : Atom) (others : List Atom) (v : Variable) : List Term :=
  let terms := (others.filter (·.relation = a.relation)).flatMap Atom.terms
  (terms.filter (· ≠ .var v)).eraseDups

/-- Whether some substitution is accepted that extends the given one and leaves each of the listed
variables alone or replaces it by one of its images. -/
def someSubstitution (accepts : Substitution → Bool) :
    List (Variable × List Term) → Substitution → Bool
  | [], m => accepts m
  | (v, terms) :: rest, m =>
    someSubstitution accepts rest m ||
      terms.any fun t => someSubstitution accepts rest ((v, t) :: m)

/-- Whether the literal at a position is a redundant atom. -/
def isRedundant (q : Query) (position : Nat) : Bool :=
  match q.body[position]? with
  | some (.atom a) =>
    let others := (q.without position).atoms
    let free := a.vars.filter (· ∉ q.head.distinguished)
    let folds (m : Substitution) := Atom.sameSet (q.atoms.map (Atom.substitute m)) others
    others.contains a ||
      someSubstitution folds (free.map fun v => (v, images a others v)) []
  | _ => false

/-- The position of the first redundant atom. -/
def firstRedundant? (q : Query) : Option Nat :=
  (List.range q.body.length).find? q.isRedundant

theorem firstRedundant?_lt {q : Query} {position : Nat} (h : q.firstRedundant? = some position) :
    position < q.body.length :=
  List.mem_range.mp (List.mem_of_find?_eq_some h)

/-! ## Minimizing -/

/-- An atom that was taken away, as text, and the position that it had then. -/
structure Removal where
  atom : String
  position : Nat
  deriving DecidableEq

/-- Take redundant atoms away until there is none; also list what was taken. -/
def reduce (q : Query) : Query × List Removal :=
  match _h : q.firstRedundant? with
  | none => (q, [])
  | some position =>
    let text := (q.body[position]?.map Literal.render).getD ""
    let (reduced, removals) := (q.without position).reduce
    (reduced, ⟨text, position⟩ :: removals)
termination_by q.body.length
decreasing_by
  have hlen := length_without (firstRedundant?_lt _h)
  omega

theorem firstRedundant?_reduce (q : Query) : q.reduce.1.firstRedundant? = none := by
  fun_induction reduce q with
  | case1 q h => exact h
  | case2 q position h text reduced removals hreduced ih =>
    rw [hreduced] at ih
    exact ih

/-- The reason for which a query is not minimized. -/
inductive MinimizeError where
  /-- The body has a comparison. -/
  | comparison (text : String)
  deriving DecidableEq

/-- The text of an error. -/
def MinimizeError.message : MinimizeError → String
  | comparison text => "cannot minimize a query with comparison atoms (found '" ++ text ++ "')"

/-- Minimize a query without comparisons. -/
def minimize (q : Query) : Except MinimizeError (Query × List Removal) :=
  match q.comparisons with
  | c :: _ => .error (.comparison c.render)
  | [] => .ok q.reduce

end Query

end Conjunct
