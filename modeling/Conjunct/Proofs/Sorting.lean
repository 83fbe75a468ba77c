import Mathlib.Data.List.Nodup

/-!
# Sorting by name

What is sorted by names that tell its elements apart comes out in one order, whatever the order was
before.
-/

namespace Conjunct

section

variable {α : Type} (key : α → String)

theorem pairwise_mergeSort_key (as : List α) :
    (as.mergeSort fun a b => key a ≤ key b).Pairwise fun a b => key a ≤ key b := by
  have htrans : ∀ a b c : α, decide (key a ≤ key b) = true → decide (key b ≤ key c) = true →
      decide (key a ≤ key c) = true := by
    intro a b c hab hbc
    rw [decide_eq_true_eq] at hab hbc ⊢
    exact String.le_trans hab hbc
  have htotal : ∀ a b : α, (decide (key a ≤ key b) || decide (key b ≤ key a)) = true := by
    intro a b
    rw [Bool.or_eq_true, decide_eq_true_eq, decide_eq_true_eq]
    exact String.le_total (key a) (key b)
  exact (List.pairwise_mergeSort htrans htotal as).imp of_decide_eq_true

variable {key}

theorem mergeSort_eq_of_perm {as bs : List α} (h : as.Perm bs)
    (hkey : ∀ a ∈ as, ∀ b ∈ as, key a = key b → a = b) :
    (as.mergeSort fun a b => key a ≤ key b) = bs.mergeSort fun a b => key a ≤ key b := by
  have hperm : (as.mergeSort fun a b => key a ≤ key b).Perm
      (bs.mergeSort fun a b => key a ≤ key b) :=
    (List.mergeSort_perm as _).trans (h.trans (List.mergeSort_perm bs _).symm)
  refine hperm.eq_of_pairwise ?_ (pairwise_mergeSort_key key as) (pairwise_mergeSort_key key bs)
  intro a b ha hb hab hba
  have ha' : a ∈ as := (List.mergeSort_perm as _).mem_iff.mp ha
  have hb' : b ∈ as := h.mem_iff.mpr ((List.mergeSort_perm bs _).mem_iff.mp hb)
  exact hkey a ha' b hb' (String.le_antisymm hab hba)

end

end Conjunct
