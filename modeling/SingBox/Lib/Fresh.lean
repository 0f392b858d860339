import Mathlib

/-!
# The first name that is free

A loop that numbers a name until it finds one that is not in use needs no more turns than there are names
in use, provided that different numbers give different names.
-/
namespace SingBox.Lib

variable {α : Type} [DecidableEq α]

def firstFree (name : Nat → α) (used : List α) : Nat → Nat → α
  | 0, index => name index
  | fuel + 1, index => if name index ∈ used then firstFree name used fuel (index + 1) else name index

theorem firstFree_eq (name : Nat → α) (used : List α) (fuel index : Nat) :
    ∃ n, firstFree name used fuel index = name n ∧
      (firstFree name used fuel index ∈ used → ∀ k ≤ fuel, name (index + k) ∈ used) := by
  induction fuel generalizing index with
  | zero =>
    refine ⟨index, rfl, fun hin k hk => ?_⟩
    rw [Nat.le_zero.mp hk]
    exact hin
  | succ fuel ih =>
    unfold firstFree
    split
    next htaken =>
      obtain ⟨n, heq, hall⟩ := ih (index + 1)
      refine ⟨n, heq, fun hin k hk => ?_⟩
      cases k with
      | zero => exact htaken
      | succ k =>
        have := hall hin k (Nat.le_of_succ_le_succ hk)
        rwa [Nat.add_right_comm, Nat.add_assoc] at this
    next hfree => exact ⟨index, rfl, fun hin => absurd hin hfree⟩

/-- Among more numbers than there are names in use one is free. -/
theorem firstFree_not_mem {name : Nat → α} (hinj : Function.Injective name) (used : List α) (index : Nat) :
    firstFree name used used.length index ∉ used := by
  intro hin
  obtain ⟨_, _, hall⟩ := firstFree_eq name used used.length index
  have hsub : ((Finset.range (used.length + 1)).image fun k => name (index + k)) ⊆ used.toFinset := by
    intro t ht
    obtain ⟨k, hk, rfl⟩ := Finset.mem_image.mp ht
    exact List.mem_toFinset.mpr (hall hin k (Nat.le_of_lt_succ (Finset.mem_range.mp hk)))
  have hcard := Finset.card_le_card hsub
  rw [Finset.card_image_of_injective _ fun k k' heq => Nat.add_left_cancel (hinj heq), Finset.card_range] at hcard
  have := List.toFinset_card_le used
  omega

theorem numbered_injective (stem : String) : Function.Injective fun n : Nat => stem ++ toString n := by
  intro k k' heq
  rw [String.append_right_inj] at heq
  exact Nat.repr_inj.mp heq

end SingBox.Lib
