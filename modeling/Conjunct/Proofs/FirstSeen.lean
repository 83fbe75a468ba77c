/-!
# First occurrences

`List.eraseDups` keeps the first of several equal elements. Two lists *show the same* if they agree
once this is done: then nobody who ignores what has been seen before can tell them apart.

Erasing repetitions early does no harm: it can be done before elements are mapped, before they are
selected, and before each of them is replaced by a list.

Main result: `eraseDups_flatMap_congr`. For lists that are compared with their repetitions in one
case and without them in another there is `Alike`, which all these operations respect.
-/

namespace Conjunct

variable {α β γ : Type} [BEq α] [LawfulBEq α] [BEq β] [LawfulBEq β]

theorem eraseDups_filter (p : α → Bool) (xs : List α) :
    (xs.filter p).eraseDups = xs.eraseDups.filter p := by
  match xs with
  | [] => rfl
  | x :: xs =>
    have ih := eraseDups_filter p (xs.filter fun y => !y == x)
    rw [List.filter_filter] at ih
    by_cases hx : p x
    · rw [List.filter_cons_of_pos hx, List.eraseDups_cons, List.eraseDups_cons,
        List.filter_cons_of_pos hx, ← ih, List.filter_filter]
      simp only [Bool.and_comm]
    · rw [List.filter_cons_of_neg hx, List.eraseDups_cons, List.filter_cons_of_neg hx, ← ih]
      congr 1
      refine List.filter_congr fun y _ => ?_
      by_cases hy : y = x <;> simp_all
termination_by xs.length
decreasing_by exact Nat.lt_succ_of_le (List.length_filter_le _ _)

theorem eraseDups_append_eq (xs ys : List α) :
    (xs ++ ys).eraseDups = xs.eraseDups ++ ys.eraseDups.filter (· ∉ xs) := by
  rw [List.eraseDups_append, List.removeAll, eraseDups_filter]
  congr 1
  refine List.filter_congr fun y _ => ?_
  by_cases hy : y ∈ xs <;> simp [hy]

theorem eraseDups_append_congr {xs xs' ys ys' : List α} (hxs : xs.eraseDups = xs'.eraseDups)
    (hys : ys.eraseDups = ys'.eraseDups) : (xs ++ ys).eraseDups = (xs' ++ ys').eraseDups := by
  rw [eraseDups_append_eq, eraseDups_append_eq, hxs, hys]
  congr 1
  refine List.filter_congr fun y _ => ?_
  have hy : y ∈ xs ↔ y ∈ xs' := by rw [← List.mem_eraseDups, hxs, List.mem_eraseDups]
  simp [hy]

/-- Replacing the elements by lists that show the same does not show. -/
theorem eraseDups_flatMap_congr_right {f g : γ → List β} {xs : List γ}
    (h : ∀ x ∈ xs, (f x).eraseDups = (g x).eraseDups) :
    (xs.flatMap f).eraseDups = (xs.flatMap g).eraseDups := by
  induction xs with
  | nil => rfl
  | cons x xs ih =>
    rw [List.flatMap_cons, List.flatMap_cons]
    exact eraseDups_append_congr (h x List.mem_cons_self)
      (ih fun y hy => h y (List.mem_cons_of_mem x hy))

/-- Taking an element away does not show behind the list that it is replaced by. -/
theorem filter_flatMap_without (f : α → List β) (x : α) (xs : List α) :
    ((xs.filter fun y => !y == x).flatMap f).filter (· ∉ f x) =
      (xs.flatMap f).filter (· ∉ f x) := by
  induction xs with
  | nil => rfl
  | cons y xs ih =>
    by_cases hy : y = x
    · subst hy
      have hnone : (f y).filter (· ∉ f y) = [] := by simp
      rw [List.filter_cons_of_neg (by simp), ih, List.flatMap_cons, List.filter_append, hnone,
        List.nil_append]
    · rw [List.filter_cons_of_pos (by simp [hy]), List.flatMap_cons, List.flatMap_cons,
        List.filter_append, List.filter_append, ih]

/-- Erasing repetitions before the elements are replaced by lists does not show. -/
theorem eraseDups_flatMap_eraseDups (f : α → List β) (xs : List α) :
    (xs.eraseDups.flatMap f).eraseDups = (xs.flatMap f).eraseDups := by
  match xs with
  | [] => rfl
  | x :: xs =>
    have ih := eraseDups_flatMap_eraseDups f (xs.filter fun y => !y == x)
    rw [List.eraseDups_cons, List.flatMap_cons, List.flatMap_cons, eraseDups_append_eq, ih,
      eraseDups_append_eq, ← eraseDups_filter, ← eraseDups_filter, filter_flatMap_without]
termination_by xs.length
decreasing_by exact Nat.lt_succ_of_le (List.length_filter_le _ _)

/-- **Nested loops respect what shows.** Lists that show the same, with elements replaced by lists
that show the same, show the same. -/
theorem eraseDups_flatMap_congr {f g : α → List β} {xs ys : List α}
    (hxs : xs.eraseDups = ys.eraseDups) (h : ∀ x ∈ ys, (f x).eraseDups = (g x).eraseDups) :
    (xs.flatMap f).eraseDups = (ys.flatMap g).eraseDups := by
  rw [← eraseDups_flatMap_eraseDups, hxs, eraseDups_flatMap_eraseDups,
    eraseDups_flatMap_congr_right h]

theorem eraseDups_map_congr (f : α → β) {xs ys : List α} (h : xs.eraseDups = ys.eraseDups) :
    (xs.map f).eraseDups = (ys.map f).eraseDups := by
  rw [List.map_eq_flatMap, List.map_eq_flatMap]
  exact eraseDups_flatMap_congr h fun _ _ => rfl

theorem eraseDups_eraseDups (xs : List α) : xs.eraseDups.eraseDups = xs.eraseDups := by
  have h := eraseDups_flatMap_eraseDups (fun x => [x]) xs
  rwa [← List.map_eq_flatMap, ← List.map_eq_flatMap, List.map_id', List.map_id'] at h

omit [LawfulBEq α] in
theorem eraseDups_sublist (xs : List α) : xs.eraseDups.Sublist xs := by
  match xs with
  | [] => exact List.Sublist.refl _
  | x :: xs =>
    rw [List.eraseDups_cons]
    exact ((eraseDups_sublist _).trans List.filter_sublist).cons_cons x
termination_by xs.length
decreasing_by exact Nat.lt_succ_of_le (List.length_filter_le _ _)

theorem nodup_eraseDups (xs : List α) : xs.eraseDups.Nodup := by
  match xs with
  | [] => exact List.nodup_nil
  | x :: xs =>
    rw [List.eraseDups_cons, List.nodup_cons]
    exact ⟨by simp, nodup_eraseDups _⟩
termination_by xs.length
decreasing_by exact Nat.lt_succ_of_le (List.length_filter_le _ _)

/-! ## Lists that are alike -/

/-- Two lists are alike if they are equal, or, when repetitions do not count, if they show the
same. -/
def Alike (exact : Bool) (xs ys : List α) : Prop :=
  if exact then xs = ys else xs.eraseDups = ys.eraseDups

namespace Alike

variable {exact : Bool} {xs ys : List α}

omit [LawfulBEq α] in
theorem of_eq (h : xs = ys) : Alike exact xs ys := by
  subst h
  cases exact <;> rfl

omit [LawfulBEq α] in
theorem eraseDups_eq (h : Alike exact xs ys) : xs.eraseDups = ys.eraseDups := by
  cases exact with
  | true => exact congrArg List.eraseDups h
  | false => exact h

theorem mem_iff (h : Alike exact xs ys) {x : α} : x ∈ xs ↔ x ∈ ys := by
  rw [← List.mem_eraseDups, h.eraseDups_eq, List.mem_eraseDups]

theorem flatMap {f g : α → List β} (h : Alike exact xs ys)
    (hfg : ∀ x ∈ ys, Alike exact (f x) (g x)) : Alike exact (xs.flatMap f) (ys.flatMap g) := by
  cases exact with
  | true =>
    cases (h : xs = ys)
    exact of_eq (by rw [List.flatMap_def, List.flatMap_def, List.map_congr_left hfg])
  | false => exact eraseDups_flatMap_congr h hfg

theorem map (f : α → β) (h : Alike exact xs ys) : Alike exact (xs.map f) (ys.map f) := by
  cases exact with
  | true => exact congrArg (List.map f) h
  | false => exact eraseDups_map_congr f h

theorem filter (p : α → Bool) (h : Alike exact xs ys) :
    Alike exact (xs.filter p) (ys.filter p) := by
  cases exact with
  | true => exact congrArg (List.filter p) h
  | false =>
    change (xs.filter p).eraseDups = (ys.filter p).eraseDups
    rw [eraseDups_filter, eraseDups_filter, h.eraseDups_eq]

/-- Where repetitions do not count, they can be erased. -/
theorem eraseDups (h : Alike false xs ys) : Alike false xs.eraseDups ys := by
  change xs.eraseDups.eraseDups = ys.eraseDups
  rw [eraseDups_eraseDups, h.eraseDups_eq]

end Alike

end Conjunct
