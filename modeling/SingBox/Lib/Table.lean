import Mathlib.Data.List.AList

/-!
# Tables changed row by row

What a table leads to after a list of deletions and a list of insertions.
-/
namespace SingBox.Lib.Table

open AList List

variable {κ ν : Type} [DecidableEq κ]

variable {a k : κ} {v : ν} {t : AList fun _ : κ => ν} {rows : List (κ × ν)}

theorem lookup_erase_eq_some :
    (t.erase k).lookup a = some v ↔ a ≠ k ∧ t.lookup a = some v := by
  by_cases h : a = k
  · subst h
    simp
  · simp [h, lookup_erase_ne h]

theorem lookup_insert_eq_some {w : ν} :
    (t.insert k w).lookup a = some v ↔ a = k ∧ w = v ∨ a ≠ k ∧ t.lookup a = some v := by
  by_cases h : a = k
  · subst h
    simp
  · simp [h, lookup_insert_ne h]

theorem lookup_foldl_erase (keys : List κ) (t : AList fun _ : κ => ν) (a : κ) :
    (keys.foldl (fun t k => t.erase k) t).lookup a = if a ∈ keys then none else t.lookup a := by
  induction keys generalizing t with
  | nil => simp
  | cons k keys ih =>
    rw [foldl_cons, ih]
    by_cases hk : a = k
    · subst hk
      simp
    · simp [hk, lookup_erase_ne hk]

theorem lookup_foldl_insert_other (h : ∀ row ∈ rows, row.1 ≠ a) (t : AList fun _ : κ => ν) :
    (rows.foldl (fun t row => t.insert row.1 row.2) t).lookup a = t.lookup a := by
  induction rows generalizing t with
  | nil => rfl
  | cons row rows ih =>
    rw [foldl_cons, ih fun row hr => h row (mem_cons_of_mem _ hr)]
    exact lookup_insert_ne (h row mem_cons_self).symm

theorem lookup_foldl_insert (hm : (a, v) ∈ rows) (h : ∀ row ∈ rows, row.1 = a → row.2 = v) (t : AList fun _ : κ => ν) :
    (rows.foldl (fun t row => t.insert row.1 row.2) t).lookup a = some v := by
  induction rows generalizing t with
  | nil => cases hm
  | cons row rows ih =>
    rw [foldl_cons]
    have hrest : ∀ r ∈ rows, r.1 = a → r.2 = v := fun r hr => h r (mem_cons_of_mem _ hr)
    by_cases ht : ∃ r ∈ rows, r.1 = a
    · obtain ⟨r, hr, rfl⟩ := ht
      refine ih ?_ hrest _
      rw [← hrest r hr rfl]
      exact hr
    · have hne : ∀ r ∈ rows, r.1 ≠ a := fun r hr he => ht ⟨r, hr, he⟩
      rw [lookup_foldl_insert_other hne]
      rcases mem_cons.mp hm with rfl | hm
      · exact lookup_insert t
      · exact absurd rfl (hne _ hm)

end SingBox.Lib.Table
