import Conjunct.EvalError
import Conjunct.Tuple

/-!
# Sources of tuples

A source hands out tuples one at a time. A pull yields a tuple, the news that there are no more,
or an error, and leaves the source in a new state; an error does not end a source, and what a pull
yields after it is up to the state it left. Resetting a source starts it again.

A source is finite. Its states have a *size*, which drops whenever a tuple is handed out, and a
reset leads to a state of at most a fixed size. This is what loops over a source recur on: looking
for the next tuple of some form (`Source.find`) and taking in all tuples (`Source.drain`).
-/

namespace Conjunct

/-- The answer to a pull. -/
inductive Pull where
  | tuple (t : Tuple)
  | exhausted
  | failed (e : EvalError)
  deriving DecidableEq

/-- A resettable supply of tuples with states of type `σ`. -/
structure Source (σ : Type) where
  /-- Ask for the next tuple. -/
  pull : σ → Pull × σ
  /-- Start again. -/
  reset : σ → Except EvalError Unit × σ
  /-- A bound for the number of tuples that pulls can still hand out. -/
  size : σ → Nat
  /-- A bound for the sizes after a reset. -/
  capacity : Nat
  /-- The bound drops with every tuple. -/
  size_pull : ∀ {s t s'}, pull s = (.tuple t, s') → size s' < size s
  /-- The bound holds after every reset that succeeds. -/
  size_reset : ∀ {s s'}, reset s = (.ok (), s') → size s' ≤ capacity

namespace Source

variable {σ β : Type}

/-! ## Finding the next tuple -/

/-- Pull until `choose` settles on an answer to a tuple, or the source has no tuple to offer. A
tuple to which `choose` answers nothing is passed over. -/
def find (src : Source σ) (choose : Tuple → Except EvalError (Option Tuple)) (s : σ) : Pull × σ :=
  match _h : src.pull s with
  | (.tuple t, s') =>
    match choose t with
    | .error e => (.failed e, s')
    | .ok (some u) => (.tuple u, s')
    | .ok none => src.find choose s'
  | (.exhausted, s') => (.exhausted, s')
  | (.failed e, s') => (.failed e, s')
termination_by src.size s
decreasing_by exact src.size_pull _h

theorem size_find (src : Source σ) {choose : Tuple → Except EvalError (Option Tuple)} {s s' : σ}
    {t : Tuple} (h : src.find choose s = (.tuple t, s')) : src.size s' < src.size s := by
  fun_induction src.find choose s with
  | case1 => simp at h
  | case2 s u s₁ hpull v hchoose =>
    cases h
    exact src.size_pull hpull
  | case3 s u s₁ hpull hchoose ih => exact Nat.lt_trans (ih h) (src.size_pull hpull)
  | case4 => simp at h
  | case5 => simp at h

/-! ## Taking in all tuples -/

/-- Pull until the source has no tuple to offer, passing each one to `accept`. A refused tuple
ends the run too, and is gone. -/
def drain (src : Source σ) (accept : β → Tuple → β × Option EvalError) (b : β) (s : σ) :
    (β × Option EvalError) × σ :=
  match _h : src.pull s with
  | (.tuple t, s') =>
    match accept b t with
    | (b', none) => src.drain accept b' s'
    | (b', some e) => ((b', some e), s')
  | (.exhausted, s') => ((b, none), s')
  | (.failed e, s') => ((b, some e), s')
termination_by src.size s
decreasing_by exact src.size_pull _h

/-- Collect all tuples, up to the first error if there is one. -/
def collect (src : Source σ) (s : σ) : (List Tuple × Option EvalError) × σ :=
  let ((ts, error?), s') := src.drain (fun ts t => (t :: ts, none)) [] s
  ((ts.reverse, error?), s')

end Source

end Conjunct
