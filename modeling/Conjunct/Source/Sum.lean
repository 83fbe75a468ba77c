import Conjunct.Query
import Conjunct.Source

/-!
# Sums

The sum of a product over all tuples of a source, in total or for each group of tuples that agree
on some positions. The source is taken in completely before the first result is handed out. Every
product and every sum has to be a word, at every step.

Groups are handed out in the order in which they first occur. In total there is one result even if
the source is empty, and with groups there is one for each of them.
-/

namespace Conjunct

/-! ## Factors -/

/-- A factor whose value is looked up in a tuple or fixed. -/
inductive Factor where
  | field (position : Nat) (term : Term)
  | literal (n : Integer)
  deriving DecidableEq

/-- A sum whose groups and factors are resolved against a schema. -/
structure SumSpec where
  /-- The sum as it is asked for. -/
  aggregate : Aggregate
  /-- The variables that name a group, with their positions. -/
  group : List (Variable × Nat)
  /-- The factors of the product. -/
  factors : List Factor
  deriving DecidableEq

namespace SumSpec

/-- The schema of the results: the variables of the group and the sum. -/
def schema (spec : SumSpec) : Atom :=
  ⟨"Sum", spec.group.map (.var ·.1) ++ [.var ⟨spec.aggregate.render⟩]⟩

/-- The value of a factor in a tuple. -/
def factorValue (spec : SumSpec) (t : Tuple) : Factor → Except EvalError Integer
  | .literal n => .ok n
  | .field position term =>
    match t[position]? with
    | some (.integer n) => .ok n
    | some (.string _) => .error (.aggregateNotInteger term.render Kind.string.name)
    | none => .error (.termUnresolved term.render spec.schema.render)

/-- Multiply a product by the value of the next factor. -/
def multiply (spec : SumSpec) (t : Tuple) (product : Integer) (f : Factor) :
    Except EvalError Integer :=
  match spec.factorValue t f with
  | .error e => .error e
  | .ok n =>
    match Integer.mul? product n with
    | some m => .ok m
    | none => .error (.aggregateOverflow spec.aggregate.render)

/-- The product of the factors in a tuple. -/
def product (spec : SumSpec) (t : Tuple) : Except EvalError Integer :=
  spec.factors.foldlM (spec.multiply t) 1

/-! ## Totals -/

/-- The totals of the groups met so far. -/
abbrev Totals := List (Tuple × Integer)

/-- Add to the total of a group, if the new total is a word. -/
def addTo? (group : Tuple) (n : Integer) : Totals → Option Totals
  | [] => some [(group, n)]
  | (g, m) :: rest =>
    if g = group then (Integer.add? m n).map fun total => (g, total) :: rest
    else (addTo? group n rest).map ((g, m) :: ·)

theorem length_addTo? {group : Tuple} {n : Integer} {totals totals' : Totals}
    (h : addTo? group n totals = some totals') : totals'.length ≤ totals.length + 1 := by
  induction totals generalizing totals' with
  | nil =>
    cases h
    simp
  | cons gm rest ih =>
    rw [addTo?] at h
    split at h
    · obtain ⟨total, _, rfl⟩ := Option.map_eq_some_iff.mp h
      simp
    · obtain ⟨rest', hrest, rfl⟩ := Option.map_eq_some_iff.mp h
      simpa using ih hrest

/-- Take one tuple into the totals. -/
def accept (spec : SumSpec) (totals : Totals) (t : Tuple) : Totals × Option EvalError :=
  match spec.product t with
  | .error e => (totals, some e)
  | .ok n =>
    match t.project? (spec.group.map Prod.snd) with
    | none => (totals, some (.tupleTooShort t.length))
    | some group =>
      match addTo? group n totals with
      | some totals' => (totals', none)
      | none => (totals, some (.aggregateOverflow spec.aggregate.render))

theorem length_accept (spec : SumSpec) (totals : Totals) (t : Tuple) :
    (spec.accept totals t).1.length ≤ totals.length + 1 := by
  unfold accept
  split
  · exact Nat.le_succ _
  · split
    · exact Nat.le_succ _
    · split
      · next hadd => exact length_addTo? hadd
      · exact Nat.le_succ _

/-- The totals before the first tuple: nothing for groups, zero for the sum in total. -/
def initial (spec : SumSpec) : Totals :=
  if spec.group = [] then [([], 0)] else []

/-- The results for the totals of all tuples. -/
def results (totals : Totals) : List Tuple :=
  totals.map fun (group, total) => group ++ [.integer total]

end SumSpec

namespace Source

variable {σ β : Type}

/-! ## The source -/

theorem length_drain (src : Source σ) {accept : List β → Tuple → List β × Option EvalError}
    (haccept : ∀ bs t, (accept bs t).1.length ≤ bs.length + 1) (bs : List β) (s : σ) :
    (src.drain accept bs s).1.1.length ≤ bs.length + src.size s := by
  fun_induction src.drain accept bs s with
  | case1 bs s t s' hpull bs' hbs ih =>
    have hone := haccept bs t
    have hdrop := src.size_pull hpull
    rw [hbs] at hone
    dsimp only at hone
    omega
  | case2 bs s t s' hpull bs' e hbs =>
    have hone := haccept bs t
    have hdrop := src.size_pull hpull
    rw [hbs] at hone
    dsimp only at hone ⊢
    omega
  | case3 => exact Nat.le_add_right _ _
  | case4 => exact Nat.le_add_right _ _

/-- Hand out the next of the results. -/
def deliver (s : σ) : List Tuple → Pull × (σ × Option (List Tuple))
  | [] => (.exhausted, (s, some []))
  | t :: rest => (.tuple t, (s, some rest))

/-- The sums over a source. A state keeps the results that are still to be handed out, once the
source has been taken in. -/
def sum (src : Source σ) (spec : SumSpec) : Source (σ × Option (List Tuple)) where
  pull
    | (s, some results) => deliver s results
    | (s, none) =>
      match src.drain spec.accept spec.initial s with
      | ((totals, none), s') => deliver s' (SumSpec.results totals)
      | ((_, some e), s') => (.failed e, (s', none))
  reset := fun (s, _) =>
    let (outcome, s') := src.reset s
    (outcome, (s', none))
  size
    | (_, some results) => results.length
    | (s, none) => src.size s + 1
  capacity := src.capacity + 1
  size_pull := by
    have hdeliver : ∀ {s : σ} {ts t s'}, deliver s ts = (.tuple t, s') →
        ∃ rest, s' = (s, some rest) ∧ ts = t :: rest := by
      intro s ts t s' h
      cases ts with
      | nil => simp [deliver] at h
      | cons u rest =>
        cases h
        exact ⟨rest, rfl, rfl⟩
    intro (s, results) t s' h
    cases results with
    | some results =>
      obtain ⟨rest, rfl, rfl⟩ := hdeliver h
      simp
    | none =>
      dsimp only at h
      split at h
      · next totals s₁ hdrain =>
        obtain ⟨rest, rfl, hresults⟩ := hdeliver h
        have hlen := src.length_drain spec.length_accept spec.initial s
        have hinit : spec.initial.length ≤ 1 := by
          unfold SumSpec.initial
          split <;> simp
        have hcount := congrArg List.length hresults
        rw [hdrain] at hlen
        simp only [SumSpec.results, List.length_map, List.length_cons] at hcount
        dsimp only at hlen ⊢
        omega
      · cases h
  size_reset := by
    intro (s, results) (s', results') h
    obtain ⟨houtcome, hstate⟩ := Prod.mk.inj h
    cases hstate
    exact Nat.succ_le_succ (src.size_reset (Prod.ext houtcome rfl))

end Source

end Conjunct
