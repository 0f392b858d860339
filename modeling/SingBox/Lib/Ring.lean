import Mathlib.Data.Nat.Basic

/-!
# Offsets taken in a ring

A ring of `size` offsets begins at `first`. Positions are compared by walking
forward only: `ahead o n` is `n` steps after `o`, and the window of `count`
offsets that ends at `last` is reached by walking almost once around.
-/
namespace SingBox.Lib.Ring

def Mem (first size o : Nat) : Prop := first ≤ o ∧ o < first + size

def ahead (first size o n : Nat) : Nat := first + (o - first + n) % size

def after (first size o : Nat) : Nat :=
  if o < first ∨ first + size - 1 ≤ o then first else o + 1

/-- The `count` offsets that end at `last`. -/
def Window (first size last count o : Nat) : Prop :=
  ∃ back, back < count ∧ o = ahead first size last (size - back)

variable {first size : Nat}

theorem ahead_ahead (o m n : Nat) :
    ahead first size (ahead first size o m) n = ahead first size o (m + n) := by
  unfold ahead
  rw [Nat.add_sub_cancel_left, Nat.mod_add_mod, Nat.add_assoc]

theorem ahead_zero {o : Nat} (ho : Mem first size o) : ahead first size o 0 = o := by
  obtain ⟨h₁, h₂⟩ := ho
  have hm : (o - first) % size = o - first := Nat.mod_eq_of_lt (by omega)
  simp only [ahead, Nat.add_zero, hm]
  omega

theorem ahead_add_size (o n : Nat) : ahead first size o (n + size) = ahead first size o n := by
  unfold ahead
  rw [← Nat.add_assoc, Nat.add_mod_right]

section
variable (hs : 0 < size)
include hs

theorem ahead_mem (o n : Nat) : Mem first size (ahead first size o n) := by
  have h := Nat.mod_lt (o - first + n) hs
  unfold Mem ahead
  omega

variable {o next last budget : Nat}

theorem after_eq_ahead (ho : Mem first size o) : after first size o = ahead first size o 1 := by
  obtain ⟨h₁, h₂⟩ := ho
  unfold after ahead
  by_cases hl : first + size - 1 ≤ o
  · have he : o - first + 1 = size := by omega
    simp [hl, he]
  · have hlt : ¬ (o < first ∨ first + size - 1 ≤ o) := by omega
    rw [if_neg hlt, Nat.mod_eq_of_lt (by omega)]
    omega

theorem after_mem : Mem first size (after first size o) := by
  unfold after Mem
  split <;> omega

section
variable (hn : Mem first size next) (hl : last = ahead first size next (budget + size - 1)) (hb : 0 < budget)
include hn hl hb

/-- Walking `budget` steps from `next` ends right behind `last`: then `next`
lies in every window of at least `budget` offsets that ends at `last`. -/
theorem window_of_budget {count : Nat} (hc : budget ≤ count) (hcs : count ≤ size) :
    Window first size last count next := by
  refine ⟨budget - 1, by omega, ?_⟩
  rw [hl, ahead_ahead]
  have he : budget + size - 1 + (size - (budget - 1)) = 0 + size + size := by omega
  rw [he, ahead_add_size, ahead_add_size, ahead_zero hn]

/-- One step forward uses one unit of the budget and leaves `last` in place. -/
theorem budget_after :
    last = ahead first size (after first size next) (budget - 1 + size - 1) := by
  rw [after_eq_ahead hs hn, ahead_ahead, hl]
  congr 1
  omega

end

end
end SingBox.Lib.Ring
