import Mathlib.Data.List.Basic
import Mathlib.Data.List.Perm.Basic

/-!
# A binary heap in a list

The heap of `container/heap`: entries are appended and sifted up, and the root leaves by
changing places with the last entry, which is sifted down. Entries are compared by a key
alone, so which of two entries with one key comes out first is a matter of their places.
-/
namespace SingBox.Lib.Heap

open List

variable {α : Type} (key : α → Nat)

def keyAt (l : List α) (i : Nat) : Nat := (l[i]?.map key).getD 0

def less (l : List α) (i j : Nat) : Bool := keyAt key l i < keyAt key l j

def swap (l : List α) (i j : Nat) : List α :=
  match l[i]?, l[j]? with
  | some a, some b => (l.set i b).set j a
  | _, _ => l

/-- The loop of `up`; `fuel` bounds its passes, of which there are at most `j`. -/
def up : Nat → List α → Nat → List α
  | 0, l, _ => l
  | fuel + 1, l, j =>
    let i := (j - 1) / 2
    if i = j ∨ less key l j i = false then l else up fuel (swap l i j) i

/-- The smaller child of `i` among the first `n` entries, the left one of two equal ones. -/
def child (l : List α) (i n : Nat) : Nat :=
  if 2 * i + 2 < n ∧ less key l (2 * i + 2) (2 * i + 1) = true then 2 * i + 2 else 2 * i + 1

/-- The loop of `down` over the first `n` entries. -/
def down : Nat → List α → Nat → Nat → List α
  | 0, l, _, _ => l
  | fuel + 1, l, i, n =>
    if n ≤ 2 * i + 1 ∨ less key l (child key l i n) i = false then l
    else down fuel (swap l i (child key l i n)) (child key l i n) n

def push (l : List α) (a : α) : List α := up key (l.length + 1) (l ++ [a]) l.length

/-- The entry that comes out, and the rest. -/
def pop (l : List α) : Option (α × List α) :=
  let n := l.length - 1
  let l := down key n (swap l 0 n) 0 n
  l.getLast?.map fun a => (a, l.dropLast)

/-- No entry among the first `n` has a smaller key than its parent. -/
def OrderedTo (l : List α) (n : Nat) : Prop :=
  ∀ j, 0 < j → j < n → keyAt key l ((j - 1) / 2) ≤ keyAt key l j

def Ordered (l : List α) : Prop := OrderedTo key l l.length

variable {key} {l : List α} {i j k n : Nat}

/-! ### Exchanges -/

theorem swap_eq (hi : i < l.length) (hj : j < l.length) : swap l i j = (l.set i l[j]).set j l[i] := by
  simp [swap, List.getElem?_eq_getElem hi, List.getElem?_eq_getElem hj]

theorem swap_perm (l : List α) (i j : Nat) : (swap l i j).Perm l := by
  by_cases hi : i < l.length
  · by_cases hj : j < l.length
    · rw [swap_eq hi hj]
      exact set_set_perm hi hj
    · simp [swap, List.getElem?_eq_none (Nat.le_of_not_lt hj)]
  · simp [swap, List.getElem?_eq_none (Nat.le_of_not_lt hi)]

@[simp] theorem length_swap (l : List α) (i j : Nat) : (swap l i j).length = l.length := (swap_perm l i j).length_eq

theorem keyAt_swap (hi : i < l.length) (hj : j < l.length) (k : Nat) :
    keyAt key (swap l i j) k = if k = j then keyAt key l i else if k = i then keyAt key l j else keyAt key l k := by
  rw [swap_eq hi hj]
  by_cases hkj : k = j
  · subst hkj
    simp [keyAt, hi, hj]
  · by_cases hki : k = i
    · subst hki
      rw [keyAt, List.getElem?_set_ne (Ne.symm hkj), List.getElem?_set_self hi, if_neg hkj, if_pos rfl]
      simp [keyAt, hj]
    · simp [keyAt, hkj, hki, List.getElem?_set_ne (Ne.symm hkj), List.getElem?_set_ne (Ne.symm hki)]

theorem getElem?_swap_other (hi : i < l.length) (hj : j < l.length) (hki : k ≠ i) (hkj : k ≠ j) :
    (swap l i j)[k]? = l[k]? := by
  rw [swap_eq hi hj, List.getElem?_set_ne (Ne.symm hkj), List.getElem?_set_ne (Ne.symm hki)]

/-! ### Sifting up -/

/-- What `up` needs around `j`: the entries elsewhere are in order, and the children of `j` are not
before its parent. -/
structure UpOrder (key : α → Nat) (l : List α) (j : Nat) : Prop where
  except : ∀ k, 0 < k → k < l.length → k ≠ j → keyAt key l ((k - 1) / 2) ≤ keyAt key l k
  below : 0 < j → ∀ k, 0 < k → k < l.length → (k - 1) / 2 = j → keyAt key l ((j - 1) / 2) ≤ keyAt key l k

theorem UpOrder.finish (h : UpOrder key l j) (hstop : (j - 1) / 2 = j ∨ less key l j ((j - 1) / 2) = false) :
    Ordered key l := by
  intro k hk hlt
  by_cases hkj : k = j
  · subst hkj
    have hne : (k - 1) / 2 ≠ k := by omega
    simpa [less] using hstop.resolve_left hne
  · exact h.except k hk hlt hkj

theorem UpOrder.move (h : UpOrder key l j) (hj : j < l.length) (hne : (j - 1) / 2 ≠ j)
    (hless : less key l j ((j - 1) / 2) = true) : UpOrder key (swap l ((j - 1) / 2) j) ((j - 1) / 2) := by
  have hpos : 0 < j := by omega
  have hp : (j - 1) / 2 < l.length := by omega
  have hlt : keyAt key l j < keyAt key l ((j - 1) / 2) := by simpa [less] using hless
  constructor
  · intro k hk hkl hkp
    rw [length_swap] at hkl
    rw [keyAt_swap hp hj, keyAt_swap hp hj]
    by_cases hkj : k = j
    · subst hkj
      have : (k - 1) / 2 ≠ k := by omega
      simp [this, Nat.le_of_lt hlt]
    have hord := h.except k hk hkl hkj
    simp only [hkj, hkp, if_false]
    by_cases hpj : (k - 1) / 2 = j
    · -- a child of the entry that came up: below its new parent, the old one of `j`
      simp only [hpj, if_true]
      exact h.below hpos k hk hkl hpj
    simp only [hpj, if_false]
    by_cases hpp : (k - 1) / 2 = (j - 1) / 2
    · simp only [hpp, if_true]
      rw [hpp] at hord
      omega
    · simp only [hpp, if_false]
      exact hord
  · intro hp0 k hk hkl hkp
    rw [length_swap] at hkl
    rw [keyAt_swap hp hj, keyAt_swap hp hj]
    have hgrand := h.except ((j - 1) / 2) hp0 (by omega) hne
    have h₁ : ((j - 1) / 2 - 1) / 2 ≠ j := by omega
    have h₂ : ((j - 1) / 2 - 1) / 2 ≠ (j - 1) / 2 := by omega
    have h₃ : k ≠ (j - 1) / 2 := by omega
    simp only [h₁, h₂, h₃, if_false]
    by_cases hkj : k = j
    · simp only [hkj, if_true]
      exact hgrand
    · simp only [hkj, if_false]
      have hord := h.except k hk hkl hkj
      rw [hkp] at hord
      omega

theorem up_perm (fuel : Nat) (l : List α) (j : Nat) : (up key fuel l j).Perm l := by
  induction fuel generalizing l j with
  | zero => exact .refl l
  | succ fuel ih =>
    unfold up
    dsimp only
    split
    · exact .refl l
    · exact (ih _ _).trans (swap_perm _ _ _)

theorem up_ordered {fuel : Nat} (h : UpOrder key l j) (hj : j < l.length) (hfuel : j < fuel) :
    Ordered key (up key fuel l j) := by
  induction fuel generalizing l j with
  | zero => omega
  | succ fuel ih =>
    unfold up
    dsimp only
    split
    next hstop => exact h.finish hstop
    next hgo =>
      rw [not_or, Bool.not_eq_false] at hgo
      have hp : (j - 1) / 2 < l.length := by omega
      exact ih (h.move hj hgo.1 hgo.2) (by rwa [length_swap]) (by omega)

/-! ### Sifting down -/

/-- What `down` needs around `i`: the entries elsewhere are in order, and the children of `i` are not
before its parent. -/
structure DownOrder (key : α → Nat) (l : List α) (i n : Nat) : Prop where
  except : ∀ k, 0 < k → k < n → (k - 1) / 2 ≠ i → keyAt key l ((k - 1) / 2) ≤ keyAt key l k
  below : 0 < i → ∀ k, 0 < k → k < n → (k - 1) / 2 = i → keyAt key l ((i - 1) / 2) ≤ keyAt key l k

theorem child_le (hk : 0 < k) (hkn : k < n) (hp : (k - 1) / 2 = i) : keyAt key l (child key l i n) ≤ keyAt key l k := by
  have hk' : k = 2 * i + 1 ∨ k = 2 * i + 2 := by omega
  unfold child
  split
  next hright =>
    have hlt : keyAt key l (2 * i + 2) < keyAt key l (2 * i + 1) := by simpa [less] using hright.2
    rcases hk' with rfl | rfl
    · omega
    · exact Nat.le_refl _
  next hleft =>
    rcases hk' with rfl | rfl
    · exact Nat.le_refl _
    · rw [not_and] at hleft
      have := hleft hkn
      simpa [less] using this

theorem child_cases (key : α → Nat) (l : List α) (i n : Nat) (h : 2 * i + 1 < n) :
    0 < child key l i n ∧ child key l i n < n ∧ (child key l i n - 1) / 2 = i ∧ i < child key l i n := by
  unfold child
  split <;> omega

theorem DownOrder.finish (h : DownOrder key l i n)
    (hstop : n ≤ 2 * i + 1 ∨ less key l (child key l i n) i = false) : OrderedTo key l n := by
  intro k hk hkn
  by_cases hp : (k - 1) / 2 = i
  · have hn : ¬ n ≤ 2 * i + 1 := by omega
    have hle : keyAt key l i ≤ keyAt key l (child key l i n) := by simpa [less] using hstop.resolve_left hn
    rw [hp]
    exact Nat.le_trans hle (child_le hk hkn hp)
  · exact h.except k hk hkn hp

theorem DownOrder.move (h : DownOrder key l i n) (hn : n ≤ l.length) (hi : 2 * i + 1 < n)
    (hless : less key l (child key l i n) i = true) :
    DownOrder key (swap l i (child key l i n)) (child key l i n) n := by
  obtain ⟨hc0, hcn, hcp, hic⟩ := child_cases key l i n hi
  have hmin : ∀ k, 0 < k → k < n → (k - 1) / 2 = i → keyAt key l (child key l i n) ≤ keyAt key l k :=
    fun k hk hkn hp => child_le hk hkn hp
  have hlt : keyAt key l (child key l i n) < keyAt key l i := by simpa [less] using hless
  generalize child key l i n = c at hc0 hcn hcp hic hmin hlt ⊢
  have hil : i < l.length := by omega
  have hcl : c < l.length := by omega
  constructor
  · intro k hk hkn hp
    rw [keyAt_swap hil hcl, keyAt_swap hil hcl]
    simp only [hp, if_false]
    by_cases hpi : (k - 1) / 2 = i
    · simp only [hpi, if_true]
      by_cases hkc : k = c
      · simp [hkc, Nat.le_of_lt hlt]
      · have hki : k ≠ i := by omega
        simp only [hkc, hki, if_false]
        exact hmin k hk hkn hpi
    · have hkc : k ≠ c := by
        rintro rfl
        exact hpi hcp
      simp only [hpi, hkc, if_false]
      by_cases hki : k = i
      · subst hki
        simp only [if_true]
        exact h.below hk c hc0 hcn hcp
      · simp only [hki, if_false]
        exact h.except k hk hkn hpi
  · intro _ k hk hkn hp
    have hki : k ≠ i := by omega
    have hkc : k ≠ c := by omega
    have hpic : i ≠ c := by omega
    rw [keyAt_swap hil hcl, keyAt_swap hil hcl, hcp]
    simp only [hki, hkc, hpic, if_false, if_true]
    have hord := h.except k hk hkn (by omega)
    rwa [hp] at hord

theorem down_perm (fuel : Nat) (l : List α) (i n : Nat) : (down key fuel l i n).Perm l := by
  induction fuel generalizing l i with
  | zero => exact .refl l
  | succ fuel ih =>
    unfold down
    split
    · exact .refl l
    · exact (ih _ _).trans (swap_perm _ _ _)

theorem down_ordered {fuel : Nat} (h : DownOrder key l i n) (hn : n ≤ l.length) (hfuel : n ≤ i + fuel) :
    OrderedTo key (down key fuel l i n) n := by
  induction fuel generalizing l i with
  | zero => exact h.finish (.inl (by omega))
  | succ fuel ih =>
    unfold down
    split
    next hstop => exact h.finish hstop
    next hgo =>
      rw [not_or, Bool.not_eq_false] at hgo
      have hi : 2 * i + 1 < n := by omega
      have hc := child_cases key l i n hi
      exact ih (h.move hn hi hgo.2) (by rwa [length_swap]) (by omega)

theorem getElem?_down {fuel : Nat} (hn : n ≤ l.length) (hk : n ≤ k) : (down key fuel l i n)[k]? = l[k]? := by
  induction fuel generalizing l i with
  | zero => rfl
  | succ fuel ih =>
    unfold down
    split
    · rfl
    next hgo =>
      rw [not_or] at hgo
      have hi : 2 * i + 1 < n := by omega
      have hc := child_cases key l i n hi
      rw [ih (by rwa [length_swap]), getElem?_swap_other] <;> omega

/-! ### What goes in and comes out -/

theorem push_perm (key : α → Nat) (l : List α) (a : α) : (push key l a).Perm (a :: l) :=
  (up_perm _ _ _).trans (perm_append_comm )

theorem keyAt_append (l : List α) (a : α) (hk : k < l.length) : keyAt key (l ++ [a]) k = keyAt key l k := by
  rw [keyAt, keyAt, List.getElem?_append_left hk]

theorem Ordered.push (h : Ordered key l) (a : α) : Ordered key (push key l a) := by
  refine up_ordered ⟨fun k hk hkl hne => ?_, fun _ k hk hkl hp => ?_⟩ (by simp) (Nat.lt_succ_self _)
  · rw [length_append, length_singleton] at hkl
    rw [keyAt_append l a (by omega), keyAt_append l a (by omega)]
    exact h k hk (by omega)
  · rw [length_append, length_singleton] at hkl
    omega

theorem Ordered.root_le (h : Ordered key l) (hk : k < l.length) : keyAt key l 0 ≤ keyAt key l k := by
  induction k using Nat.strongRecOn with
  | ind k ih =>
    rcases Nat.eq_zero_or_pos k with rfl | hpos
    · exact Nat.le_refl _
    · exact Nat.le_trans (ih ((k - 1) / 2) (by omega) (by omega)) (h k hpos hk)

theorem keyAt_eq (hk : k < l.length) : keyAt key l k = key l[k] := by
  simp [keyAt, List.getElem?_eq_getElem hk]

/-- The root comes out, and the rest is in order. -/
theorem Ordered.pop (h : Ordered key l) (hne : l ≠ []) :
    ∃ rest, Heap.pop key l = some (l.head hne, rest) ∧ l.Perm (l.head hne :: rest) ∧ Ordered key rest ∧
      ∀ b ∈ rest, key (l.head hne) ≤ key b := by
  have hpos : 0 < l.length := length_pos_iff.mpr hne
  have hlast : l.length - 1 < l.length := by omega
  -- around the root, order is not asked for
  have hdown : DownOrder key (swap l 0 (l.length - 1)) 0 (l.length - 1) := by
    refine ⟨fun k hk hkn hp => ?_, fun h0 => absurd h0 (Nat.lt_irrefl 0)⟩
    rw [keyAt_swap hpos hlast, keyAt_swap hpos hlast]
    have h₁ : k ≠ l.length - 1 := by omega
    have h₂ : k ≠ 0 := by omega
    have h₃ : (k - 1) / 2 ≠ l.length - 1 := by omega
    simp only [h₁, h₂, h₃, hp, if_false]
    exact h k hk (by omega)
  have hord := down_ordered hdown (by rw [length_swap]; omega) (show l.length - 1 ≤ 0 + (l.length - 1) by omega)
  have hperm : (down key (l.length - 1) (swap l 0 (l.length - 1)) 0 (l.length - 1)).Perm l :=
    (down_perm _ _ _ _).trans (swap_perm _ _ _)
  have hout : (down key (l.length - 1) (swap l 0 (l.length - 1)) 0 (l.length - 1)).getLast? = some (l.head hne) := by
    rw [List.getLast?_eq_getElem?, hperm.length_eq, getElem?_down (by rw [length_swap]; omega) (Nat.le_refl _),
      swap_eq hpos hlast, List.getElem?_set_self (by simpa using hlast), head_eq_getElem]
  generalize hl' : down key (l.length - 1) (swap l 0 (l.length - 1)) 0 (l.length - 1) = l' at hord hperm hout
  have hsplit : l' = l'.dropLast ++ [l.head hne] := (dropLast_append_getLast? _ hout).symm
  have hcons : l.Perm (l.head hne :: l'.dropLast) := by
    refine hperm.symm.trans ?_
    nth_rewrite 1 [hsplit]
    exact perm_append_comm
  have hlen : l'.dropLast.length = l.length - 1 := by rw [length_dropLast, hperm.length_eq]
  refine ⟨l'.dropLast, ?_, hcons, ?_, ?_⟩
  · simp only [Heap.pop, hl', hout, Option.map_some]
  · intro k hk hkl
    rw [hlen] at hkl
    have hkeep : ∀ m, m < l'.dropLast.length → keyAt key l'.dropLast m = keyAt key l' m := by
      intro m hm
      rw [hsplit, keyAt_append _ _ (by simpa using hm), dropLast_concat]
    rw [hkeep k (by omega), hkeep _ (by omega)]
    exact hord k hk hkl
  · intro b hb
    obtain ⟨k, hk, rfl⟩ := getElem_of_mem (hcons.mem_iff.mpr (mem_cons_of_mem _ hb))
    have hroot := h.root_le hk
    rw [keyAt_eq hk, keyAt_eq hpos, ← head_eq_getElem hne] at hroot
    exact hroot

end SingBox.Lib.Heap
