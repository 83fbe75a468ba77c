import Conjunct.Source

/-!
# Rows, selections and projections

The sources that pass tuples on one by one: a list of rows, the tuples of a source that satisfy a
predicate, and the tuples of a source cut down to some positions, where only the first of several
equal ones is handed out.
-/

namespace Conjunct

namespace Source

variable {σ : Type}

/-! ## Rows -/

/-- The given tuples, in order. -/
def rows (ts : List Tuple) : Source (List Tuple) where
  pull
    | t :: rest => (.tuple t, rest)
    | [] => (.exhausted, [])
  reset _ := (.ok (), ts)
  size := List.length
  capacity := ts.length
  size_pull := by
    intro s t s' h
    cases s with
    | nil => simp at h
    | cons u rest =>
      cases h
      simp
  size_reset := by
    intro s s' h
    cases h
    exact Nat.le_refl _

/-! ## Selections -/

/-- The tuples of a source that are accepted. -/
def filter (src : Source σ) (accepts : Tuple → Bool) : Source σ where
  pull := src.find fun t => .ok (if accepts t then some t else none)
  reset := src.reset
  size := src.size
  capacity := src.capacity
  size_pull := src.size_find
  size_reset := src.size_reset

/-! ## Projections -/

/-- The new tuple that a projection makes of a tuple, unless it has been handed out before. -/
def unseen (positions : List Nat) (seen : List Tuple) (t : Tuple) :
    Except EvalError (Option Tuple) :=
  match t.project? positions with
  | none => .error (.tupleTooShort t.length)
  | some u => .ok (if u ∈ seen then none else some u)

/-- The distinct projections of the tuples of a source, in the order of first occurrence. A state
keeps those that have been handed out. -/
def distinct (src : Source σ) (positions : List Nat) : Source (σ × List Tuple) where
  pull := fun (s, seen) =>
    match src.find (unseen positions seen) s with
    | (.tuple u, s') => (.tuple u, (s', u :: seen))
    | (.exhausted, s') => (.exhausted, (s', seen))
    | (.failed e, s') => (.failed e, (s', seen))
  reset := fun (s, _) =>
    let (outcome, s') := src.reset s
    (outcome, (s', []))
  size := fun (s, _) => src.size s
  capacity := src.capacity
  size_pull := by
    intro (s, seen) t (s', seen') h
    dsimp only at h ⊢
    split at h
    · next hfind =>
      cases h
      exact src.size_find hfind
    · cases h
    · cases h
  size_reset := by
    intro (s, seen) (s', seen') h
    obtain ⟨houtcome, hstate⟩ := Prod.mk.inj h
    cases hstate
    exact src.size_reset (Prod.ext houtcome rfl)

end Source

end Conjunct
