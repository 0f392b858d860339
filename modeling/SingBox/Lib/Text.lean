import Mathlib.Data.Nat.Digits.Defs

/-!
# Texts that can be read back

Numbers in a base up to 36, and pieces joined by a separator that none of them holds.
A text that is made in this way determines what it was made of.
-/
namespace SingBox.Lib

open List

variable {α : Type}

/-- A beginning that a property tells from what follows it. -/
theorem append_inj_of_all {p : α → Prop} {a a' b b' : List α} (ha : ∀ x ∈ a, p x) (ha' : ∀ x ∈ a', p x)
    (hb : ∀ x ∈ b.head?, ¬p x) (hb' : ∀ x ∈ b'.head?, ¬p x) (h : a ++ b = a' ++ b') : a = a' ∧ b = b' := by
  induction a generalizing a' with
  | nil =>
    cases a' with
    | nil => exact ⟨rfl, h⟩
    | cons y a' =>
      rw [nil_append] at h
      exact absurd (ha' y mem_cons_self) (hb y (by simp [h]))
  | cons x a ih =>
    cases a' with
    | nil =>
      rw [nil_append] at h
      exact absurd (ha x mem_cons_self) (hb' x (by simp [← h]))
    | cons y a' =>
      simp only [cons_append, List.cons.injEq] at h
      obtain ⟨hxy, hrest⟩ := h
      have := ih (fun z hz => ha z (mem_cons_of_mem _ hz)) (fun z hz => ha' z (mem_cons_of_mem _ hz)) hrest
      exact ⟨by rw [hxy, this.1], this.2⟩

/-- The pieces with a separator between them. -/
def join (separator : α) : List (List α) → List α
  | [] => []
  | [piece] => piece
  | piece :: next :: pieces => piece ++ separator :: join separator (next :: pieces)

theorem mem_join {separator x : α} {pieces : List (List α)} (h : x ∈ join separator pieces) :
    x = separator ∨ ∃ piece ∈ pieces, x ∈ piece := by
  induction pieces with
  | nil => cases h
  | cons piece pieces ih =>
    cases pieces with
    | nil => exact .inr ⟨piece, mem_cons_self, h⟩
    | cons next pieces =>
      rw [join, mem_append, mem_cons] at h
      rcases h with h | h | h
      · exact .inr ⟨piece, mem_cons_self, h⟩
      · exact .inl h
      · rcases ih h with h | ⟨q, hq, hx⟩
        · exact .inl h
        · exact .inr ⟨q, mem_cons_of_mem _ hq, hx⟩

theorem join_inj {separator : α} {pieces pieces' : List (List α)} (hne : pieces ≠ []) (hne' : pieces' ≠ [])
    (hfree : ∀ piece ∈ pieces, separator ∉ piece) (hfree' : ∀ piece ∈ pieces', separator ∉ piece)
    (h : join separator pieces = join separator pieces') : pieces = pieces' := by
  have hsplit : ∀ {a a' b b' : List α}, separator ∉ a → separator ∉ a' → (b = [] ∨ ∃ c, b = separator :: c) →
      (b' = [] ∨ ∃ c, b' = separator :: c) → a ++ b = a' ++ b' → a = a' ∧ b = b' := by
    intro a a' b b' ha ha' hb hb' heq
    refine append_inj_of_all (p := fun x => x ≠ separator) ?_ ?_ ?_ ?_ heq
    · rintro x hx rfl
      exact ha hx
    · rintro x hx rfl
      exact ha' hx
    · rcases hb with rfl | ⟨c, rfl⟩ <;> simp
    · rcases hb' with rfl | ⟨c, rfl⟩ <;> simp
  induction pieces generalizing pieces' with
  | nil => exact absurd rfl hne
  | cons piece pieces ih =>
    obtain ⟨piece', pieces', rfl⟩ := exists_cons_of_ne_nil hne'
    have hp := hfree piece mem_cons_self
    have hp' := hfree' piece' mem_cons_self
    cases pieces with
    | nil =>
      cases pieces' with
      | nil => simpa [join] using h
      | cons next' pieces' =>
        rw [join, join, ← append_nil piece] at h
        have := (hsplit hp hp' (.inl rfl) (.inr ⟨_, rfl⟩) h).2
        cases this
    | cons next pieces =>
      cases pieces' with
      | nil =>
        rw [join, join, ← append_nil piece'] at h
        have := (hsplit hp hp' (.inr ⟨_, rfl⟩) (.inl rfl) h).2
        cases this
      | cons next' pieces' =>
        rw [join, join] at h
        obtain ⟨hpiece, hrest⟩ := hsplit hp hp' (.inr ⟨_, rfl⟩) (.inr ⟨_, rfl⟩) h
        rw [List.cons.injEq] at hrest
        have := ih (cons_ne_nil _ _) (cons_ne_nil _ _) (fun q hq => hfree q (mem_cons_of_mem _ hq))
          (fun q hq => hfree' q (mem_cons_of_mem _ hq)) hrest.2
        rw [hpiece, this]

/-- A number of 16 bits is given by its two bytes. -/
theorem uint16_ext {n n' : UInt16} (hhigh : (n >>> 8).toUInt8 = (n' >>> 8).toUInt8) (hlow : n.toUInt8 = n'.toUInt8) :
    n = n' := by
  have h1 := congrArg UInt8.toNat hhigh
  have h2 := congrArg UInt8.toNat hlow
  have hlt := n.toNat_lt
  have hlt' := n'.toNat_lt
  apply UInt16.toNat_inj.mp
  simp [Nat.shiftRight_eq_div_pow] at h1 h2
  omega

/-- A digit: `0` to `9`, then `a` to `z`. -/
def digit (d : Nat) : UInt8 := UInt8.ofNat (if d < 10 then 48 + d else 87 + d)

theorem digit_toNat {d : Nat} (h : d < 36) : (digit d).toNat = if d < 10 then 48 + d else 87 + d := by
  rw [digit, UInt8.toNat_ofNat']
  split <;> omega

def digitValue (x : UInt8) : Nat := if x.toNat < 58 then x.toNat - 48 else x.toNat - 87

theorem digitValue_digit {d : Nat} (h : d < 36) : digitValue (digit d) = d := by
  rw [digitValue, digit_toNat h]
  split <;> split <;> omega

/-- A number in a base, as `strconv.FormatUint` writes it. -/
def formatUint (base n : Nat) : List UInt8 := if n = 0 then [digit 0] else ((base.digits n).map digit).reverse

theorem formatUint_ne_nil (base n : Nat) : formatUint base n ≠ [] := by
  unfold formatUint
  split
  · exact cons_ne_nil _ _
  next hn => simpa using Nat.digits_ne_nil_iff_ne_zero.mpr hn

section
variable {base : Nat} (hbase : 1 < base) (hle : base ≤ 36)
include hbase hle

theorem mem_formatUint {n : Nat} {x : UInt8} (h : x ∈ formatUint base n) : 48 ≤ x.toNat ∧ x.toNat ≠ 58 := by
  unfold formatUint at h
  split at h
  · rw [mem_singleton] at h
    exact h ▸ by decide
  rw [mem_reverse, mem_map] at h
  obtain ⟨d, hd, rfl⟩ := h
  rw [digit_toNat (Nat.lt_of_lt_of_le (Nat.digits_lt_base hbase hd) hle)]
  split <;> omega

/-- A number is read back from its text. -/
theorem ofDigits_formatUint (n : Nat) : Nat.ofDigits base ((formatUint base n).map digitValue).reverse = n := by
  unfold formatUint
  split
  next hn => simp [digitValue_digit, hn]
  · have hdigits : (base.digits n).map (fun d => digitValue (digit d)) = base.digits n := by
      conv_rhs => rw [← map_id (base.digits n)]
      refine map_congr_left fun d hd => ?_
      exact digitValue_digit (Nat.lt_of_lt_of_le (Nat.digits_lt_base hbase hd) hle)
    rw [map_reverse, reverse_reverse, map_map]
    exact (congrArg _ hdigits).trans (Nat.ofDigits_digits base n)

theorem formatUint_inj {n n' : Nat} (h : formatUint base n = formatUint base n') : n = n' := by
  rw [← ofDigits_formatUint hbase hle n, h, ofDigits_formatUint hbase hle n']

end
end SingBox.Lib
