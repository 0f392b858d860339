import Mathlib.Data.List.Basic
import Mathlib.Algebra.GroupWithZero.Nat

/-!
# Counting in a list that is updated in place

What an update at one place does to a count, written without subtraction; also for
the elements of parts that a list puts together.
-/
namespace SingBox.Lib

open List

variable {α : Type} {l : List α} {i : Nat} {a : α}

theorem lt_of_getElem? (h : l[i]? = some a) : i < l.length := (List.getElem?_eq_some_iff.mp h).1

variable {b : α} {P : α → Prop}

theorem of_getElem?_set {j : Nat} (h : (l.set i b)[j]? = some a) : i = j ∧ a = b ∨ i ≠ j ∧ l[j]? = some a := by
  rw [List.getElem?_set] at h
  split at h
  next heq =>
    split at h
    · exact .inl ⟨heq, (Option.some.inj h).symm⟩
    · cases h
  next hne => exact .inr ⟨hne, h⟩

theorem of_getElem?_snoc (h : (l ++ [b])[i]? = some a) : l[i]? = some a ∨ i = l.length ∧ a = b := by
  rw [List.getElem?_append] at h
  split at h
  · exact .inl h
  · rw [List.getElem?_singleton] at h
    split at h
    · exact .inr ⟨by omega, (Option.some.inj h).symm⟩
    · cases h

variable {p : α → Bool}

theorem countP_set_add (h : l[i]? = some a) (b : α) :
    (l.set i b).countP p + (if p a then 1 else 0) = l.countP p + if p b then 1 else 0 := by
  obtain ⟨hi, rfl⟩ := List.getElem?_eq_some_iff.mp h
  rw [countP_set hi]
  have hpos : p l[i] = true → 0 < l.countP p := fun hp => countP_pos_iff.mpr ⟨l[i], getElem_mem hi, hp⟩
  by_cases hp : p l[i] = true
  · have := hpos hp
    simp only [hp, if_true]
    omega
  · simp [hp]

theorem countP_set_eq (h : l[i]? = some a) (hp : p b = p a) :
    (l.set i b).countP p = l.countP p := by
  have := countP_set_add (p := p) h b
  rw [hp] at this
  omega

theorem countP_set_le (h : l[i]? = some a) (hp : p b = true → p a = true) :
    (l.set i b).countP p ≤ l.countP p := by
  have := countP_set_add (p := p) h b
  by_cases hb : p b = true
  · simp only [hb, hp hb, if_true] at this
    omega
  · rw [if_neg hb] at this
    omega

theorem countP_modify_eq {f : α → α} (hp : ∀ a, p (f a) = p a) (l : List α) (i : Nat) :
    (l.modify i f).countP p = l.countP p := by
  induction l generalizing i with
  | nil => rw [modify_nil]
  | cons a l ih =>
    cases i with
    | zero => simp only [modify_zero_cons, countP_cons, hp]
    | succ i => simp only [modify_succ_cons, countP_cons, ih]

theorem forall_mem_set (h : ∀ e ∈ l, P e) (hb : P b) : ∀ e ∈ l.set i b, P e := by
  intro e he
  rcases mem_or_eq_of_mem_set he with he | rfl
  · exact h e he
  · exact hb

theorem forall_mem_snoc (h : ∀ e ∈ l, P e) (hb : P b) : ∀ e ∈ l ++ [b], P e :=
  forall_mem_append.mpr ⟨h, forall_mem_singleton.mpr hb⟩

theorem sum_map_set_add {f : α → Nat} (h : l[i]? = some a) (b : α) :
    ((l.set i b).map f).sum + f a = (l.map f).sum + f b := by
  induction l generalizing i with
  | nil => cases h
  | cons c l ih =>
    cases i with
    | zero =>
      cases h
      simp only [set_cons_zero, map_cons, sum_cons]
      omega
    | succ i =>
      have := ih h
      simp only [set_cons_succ, map_cons, sum_cons]
      omega

section
variable {β : Type} [DecidableEq β] {f : α → List β}

theorem count_flatMap_set_add (h : l[i]? = some a) (b : α) (x : β) :
    ((l.set i b).flatMap f).count x + (f a).count x = (l.flatMap f).count x + (f b).count x := by
  induction l generalizing i with
  | nil => cases h
  | cons c l ih =>
    cases i with
    | zero =>
      cases h
      simp only [set_cons_zero, flatMap_cons, count_append]
      omega
    | succ i =>
      have := ih h
      simp only [set_cons_succ, flatMap_cons, count_append]
      omega

variable {b : α} {x : β}

omit [DecidableEq β] in
theorem flatMap_set_eq (h : l[i]? = some a) (hb : f b = f a) : (l.set i b).flatMap f = l.flatMap f := by
  induction l generalizing i with
  | nil => cases h
  | cons c l ih =>
    cases i with
    | zero =>
      cases h
      rw [set_cons_zero, flatMap_cons, flatMap_cons, hb]
    | succ i => rw [set_cons_succ, flatMap_cons, flatMap_cons, ih h]

omit [DecidableEq β] in
theorem mem_flatMap_set (h : x ∈ (l.set i b).flatMap f) : x ∈ f b ∨ x ∈ l.flatMap f := by
  obtain ⟨c, hc, hx⟩ := mem_flatMap.mp h
  rcases mem_or_eq_of_mem_set hc with hc | rfl
  · exact .inr (mem_flatMap.mpr ⟨c, hc, hx⟩)
  · exact .inl hx

omit [DecidableEq β] in
theorem mem_flatMap_set_of_mem (h : l[i]? = some a) (b : α) (hx : x ∈ l.flatMap f) :
    x ∈ f a ∨ x ∈ (l.set i b).flatMap f := by
  obtain ⟨c, hc, hxc⟩ := mem_flatMap.mp hx
  obtain ⟨j, hj⟩ := mem_iff_getElem?.mp hc
  by_cases hij : i = j
  · subst hij
    rw [h] at hj
    cases hj
    exact .inl hxc
  · refine .inr (mem_flatMap.mpr ⟨c, mem_iff_getElem?.mpr ⟨j, ?_⟩, hxc⟩)
    rw [List.getElem?_set_ne hij, hj]

/-- An element that occurs once is in one of the parts. -/
theorem eq_of_count_flatMap_le_one (h : (l.flatMap f).count x ≤ 1) (ha : a ∈ l) (hb : b ∈ l) (hxa : x ∈ f a)
    (hxb : x ∈ f b) : a = b := by
  induction l with
  | nil => cases ha
  | cons c l ih =>
    rw [flatMap_cons, count_append] at h
    have hin : ∀ {d}, d ∈ l → x ∈ f d → 0 < (l.flatMap f).count x := fun hd hx =>
      count_pos_iff.mpr (mem_flatMap.mpr ⟨_, hd, hx⟩)
    have hhead : ∀ {d}, d = c → x ∈ f d → 0 < (f c).count x := fun hd hx => by
      subst hd
      exact count_pos_iff.mpr hx
    rcases mem_cons.mp ha with hac | ha' <;> rcases mem_cons.mp hb with hbc | hb'
    · rw [hac, hbc]
    · have := hhead hac hxa
      have := hin hb' hxb
      omega
    · have := hhead hbc hxb
      have := hin ha' hxa
      omega
    · exact ih (by omega) ha' hb'

end
end SingBox.Lib
