/-!
# Decimal integers

Reading and writing integers in base ten. An `Integer` is a signed word of 64 bits: a numeral
outside that range is refused when it is read, and a sum or product outside it is refused where it
is formed (`Integer.ofInt?`).
-/

namespace Conjunct

/-- Whether a character is one of the ten ASCII digits. -/
def Decimal.isDigit (c : Char) : Bool :=
  '0' ≤ c && c ≤ '9'

theorem Decimal.isDigit_of_mem_toDigits {n : Nat} {c : Char} (h : c ∈ Nat.toDigits 10 n) :
    isDigit c = true :=
  Nat.isDigit_of_mem_toDigits (by decide) (by decide) h

/-- A signed integer of 64 bits. -/
abbrev Integer := Int64

namespace Integer

/-- Whether a number has a word of its own. -/
def InRange (n : Int) : Prop :=
  -9223372036854775808 ≤ n ∧ n < 9223372036854775808

instance (n : Int) : Decidable (InRange n) :=
  inferInstanceAs (Decidable (_ ∧ _))

/-- The word with the given value, if there is one. -/
def ofInt? (n : Int) : Option Integer :=
  if InRange n then some (Int64.ofInt n) else none

/-- The product of two words, if it is a word. -/
def mul? (a b : Integer) : Option Integer :=
  ofInt? (a.toInt * b.toInt)

/-- The sum of two words, if it is a word. -/
def add? (a b : Integer) : Option Integer :=
  ofInt? (a.toInt + b.toInt)

/-- Read a numeral: an optional sign, then one or more digits, in range. -/
def read? (cs : List Char) : Option Integer :=
  let unsigned := match cs with
    | '+' :: ds | '-' :: ds => ds
    | ds => ds
  if unsigned ≠ [] ∧ unsigned.all Decimal.isDigit then
    let magnitude : Int := Nat.ofDigitChars 10 unsigned 0
    ofInt? (if cs.head? = some '-' then -magnitude else magnitude)
  else
    none

/-- The decimal text of a word: a minus sign if it is negative, then its digits. -/
def render (n : Integer) : List Char :=
  if n.toInt < 0 then '-' :: Nat.toDigits 10 n.toInt.natAbs else Nat.toDigits 10 n.toInt.natAbs

theorem ofInt?_eq_some_iff {n : Int} {a : Integer} : ofInt? n = some a ↔ a.toInt = n := by
  constructor
  · intro h
    unfold ofInt? at h
    split at h
    · next hn =>
      obtain ⟨lo, hi⟩ := hn
      rw [← Option.some.inj h]
      exact Int64.toInt_ofInt_of_le lo hi
    · cases h
  · rintro rfl
    unfold ofInt?
    rw [if_pos ⟨Int64.le_toInt a, Int64.toInt_lt a⟩, Int64.ofInt_toInt]

end Integer

end Conjunct
