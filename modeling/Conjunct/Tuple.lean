import Conjunct.Constant
import Conjunct.Text.Blank

/-!
# Tuples

A tuple is a row of constants, written with commas between its fields.
-/

namespace Conjunct

/-- A row of fields. -/
abbrev Tuple := List Constant

namespace Tuple

/-- The text of a tuple. -/
def render (t : Tuple) : String :=
  Text.joined "," (t.map Constant.render)

/-- The fields at the given positions, if the tuple has them all. -/
def project? (t : Tuple) (positions : List Nat) : Option Tuple :=
  positions.mapM fun i => t[i]?

/-! ## Looking a tuple up -/

/-- Whether two tuples have the same fields. -/
def same : Tuple → Tuple → Bool
  | [], u => u.isEmpty
  | _ :: _, [] => false
  | a :: t, b :: u => a = b && same t u

theorem same_iff {t u : Tuple} : t.same u = true ↔ t = u := by
  induction t generalizing u with
  | nil => cases u <;> simp [same]
  | cons a t ih => cases u <;> simp [same, ih]

/-- Whether a tuple is among some tuples. -/
def isAmong (t : Tuple) : List Tuple → Bool
  | [] => false
  | u :: us => t.same u || t.isAmong us

theorem isAmong_iff {t : Tuple} {us : List Tuple} : t.isAmong us = true ↔ t ∈ us := by
  induction us with
  | nil => simp [isAmong]
  | cons u us ih => simp [isAmong, same_iff, ih]

/-- A projection looks every tuple up among those before it, so this is decided field by field. -/
instance (t : Tuple) (us : List Tuple) : Decidable (t ∈ us) :=
  decidable_of_iff (t.isAmong us = true) isAmong_iff

end Tuple

end Conjunct
