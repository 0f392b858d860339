import Mathlib.Data.List.Basic
import Mathlib.Data.List.Induction
import Mathlib.Logic.Function.Basic

/-!
# Invariants of a loop over a list

A loop that works off a list keeps a statement about what it has built and what
is left; at the end nothing is left.
-/
namespace SingBox.Lib

open Function List

variable {α β : Type}

variable {f : β → α → β} {l : List α}

theorem foldl_left (P : β → List α → Prop) (h : ∀ b a rest, P b (a :: rest) → P (f b a) rest) :
    ∀ (l : List α) (b : β), P b l → P (l.foldl f b) []
  | [], _, hp => hp
  | a :: l, b, hp => foldl_left P h l (f b a) (h b a l hp)

/-- The same, with a statement about what the loop has seen. -/
theorem foldl_seen (P : β → List α → Prop) (h : ∀ b seen a, P b seen → P (f b a) (seen ++ [a])) (l : List α) {b : β}
    (hb : P b []) :
    P (l.foldl f b) l := by
  induction l using reverseRecOn with
  | nil => exact hb
  | append_singleton l a ih =>
    rw [foldl_append, foldl_cons, foldl_nil]
    exact h _ l a ih

theorem foldl_keep (P : β → Prop) (h : ∀ b, ∀ a ∈ l, P b → P (f b a)) {b : β} (hb : P b) : P (l.foldl f b) := by
  induction l generalizing b with
  | nil => exact hb
  | cons a l ih =>
    have hh := h b a mem_cons_self hb
    exact ih (fun c x hx => h c x (mem_cons_of_mem a hx)) hh

theorem exists_mem_zipIdx (l : List α) (P : α → Prop) : (∃ e ∈ l.zipIdx, P e.1) ↔ ∃ a ∈ l, P a := by
  constructor
  · rintro ⟨e, he, h⟩
    exact ⟨e.1, fst_mem_of_mem_zipIdx he, h⟩
  · rintro ⟨a, ha, h⟩
    obtain ⟨i, hi⟩ := getElem?_of_mem ha
    exact ⟨(a, i), mem_zipIdx_iff_getElem?.mpr hi, h⟩

theorem foldl_update_iff {κ γ : Type} [DecidableEq κ] (key : α → κ) (val : α → γ) (hl : (l.map key).Nodup)
    {index : κ → Option γ} {k : κ} {v : γ} :
    l.foldl (fun (index : κ → Option γ) c => update index (key c) (some (val c))) index k = some v ↔
      (∃ a ∈ l, key a = k ∧ val a = v) ∨ ((∀ c ∈ l, key c ≠ k) ∧ index k = some v) := by
  induction l generalizing index with
  | nil => simp
  | cons c l ih =>
    obtain ⟨hc, hl⟩ := nodup_cons.mp hl
    rw [foldl_cons, ih hl, exists_mem_cons_iff]
    by_cases hk : key c = k
    · subst hk
      have hfree : ∀ c' ∈ l, key c' ≠ key c := fun c' hc' heq => hc (mem_map.mpr ⟨c', hc', heq⟩)
      simp only [update_self, Option.some.injEq, forall_mem_cons, ne_eq, not_true_eq_false,
        false_and, or_false, true_and]
      constructor
      · rintro (⟨a, ha, heq, _⟩ | ⟨_, hv⟩)
        · exact absurd heq (hfree a ha)
        · exact .inl hv
      · rintro (hv | ⟨a, ha, heq, _⟩)
        · exact .inr ⟨hfree, hv⟩
        · exact absurd heq (hfree a ha)
    · simp only [update_of_ne (Ne.symm hk), forall_mem_cons, hk, false_and, false_or, ne_eq,
        not_false_eq_true, true_and]

theorem foldl_update_eq {κ : Type} [DecidableEq κ] (key : α → κ) (hl : (l.map key).Nodup) {index : κ → Option α}
    {k : κ} {a : α} :
    l.foldl (fun (index : κ → Option α) c => update index (key c) (some c)) index k = some a ↔
      (a ∈ l ∧ key a = k) ∨ ((∀ c ∈ l, key c ≠ k) ∧ index k = some a) := by
  rw [foldl_update_iff key (fun c => c) hl]
  refine or_congr_left ⟨?_, fun h => ⟨a, h.1, h.2, rfl⟩⟩
  rintro ⟨a, ha, hk, rfl⟩
  exact ⟨ha, hk⟩

end SingBox.Lib
