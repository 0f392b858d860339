import Mathlib.Data.List.Sort

/-!
# The rank of what is taken from a sorted list

Of the first `count` elements of a sorted list, each has fewer than `count`
elements strictly before it in the order.
-/
namespace SingBox.Lib

variable {α : Type}

theorem countP_lt_of_mem_take (key : α → Nat) (l : List α) {count : Nat} {a : α}
    (h : a ∈ (l.insertionSort fun x y => key x ≤ key y).take count) :
    l.countP (fun b => decide (key b < key a)) < count := by
  have hp := List.perm_insertionSort (fun x y => key x ≤ key y) l
  have hs := List.pairwise_insertionSort (fun x y : α => key x ≤ key y) l
  generalize l.insertionSort (fun x y => key x ≤ key y) = s at h hp hs
  rw [← hp.countP_eq, ← List.take_append_drop count s, List.countP_append]
  rw [← List.take_append_drop count s, List.pairwise_append] at hs
  have hdrop : (s.drop count).countP (fun b => decide (key b < key a)) = 0 := by
    rw [List.countP_eq_zero]
    intro b hb
    have := hs.2.2 a h b hb
    simp only [decide_eq_true_eq]
    omega
  have htake : (s.take count).countP (fun b => decide (key b < key a)) < (s.take count).length := by
    refine Nat.lt_of_le_of_ne List.countP_le_length fun he => ?_
    have := List.countP_eq_length.mp he a h
    simp at this
  rw [hdrop, Nat.add_zero]
  exact Nat.lt_of_lt_of_le htake (List.length_take_le _ _)

end SingBox.Lib
