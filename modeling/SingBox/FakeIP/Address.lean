import Mathlib.Data.Nat.Basic
import Mathlib.Tactic.Ring

/-!
# Addresses and ranges of addresses

The part of `net/netip` the store uses, and the numbers `newPool` derives from
a range: offsets are counted from the network address, the first two and the
broadcast address are not given out, and of a range with 32 or more host bits
only the start is used.
-/
namespace SingBox.FakeIP

open Option

inductive Family where
  | inet4 | inet6
  deriving DecidableEq, Repr

def Family.bitLen : Family → Nat
  | .inet4 => 32
  | .inet6 => 128

structure Addr where
  family : Family
  raw : Nat
  zone : String
  deriving DecidableEq, Repr

structure Prefix where
  family : Family
  raw : Nat
  bits : Nat
  raw_lt : raw < 2 ^ family.bitLen
  bits_le : bits ≤ family.bitLen
  deriving DecidableEq

def firstOffset : Nat := 2
def reserveStep : Nat := 1024
def recordLimit : Nat := 65536

namespace Prefix

variable (n : Prefix)

def hostBits : Nat := n.family.bitLen - n.bits

/-- The network address, `prefix.Masked().Addr()`. -/
def base : Nat := n.raw / 2 ^ n.hostBits * 2 ^ n.hostBits

def Contains (a : Addr) : Prop :=
  a.family = n.family ∧ a.zone = "" ∧ a.raw / 2 ^ n.hostBits = n.raw / 2 ^ n.hostBits

instance (a : Addr) : Decidable (n.Contains a) := by unfold Contains; infer_instance

/-- `pool.end`: the broadcast address is not given out. -/
def stop : Nat := if n.hostBits < 32 then 2 ^ n.hostBits - 1 else 2 ^ 32 - 1

def usable : Nat := n.stop - firstOffset

/-- `pool.step`: how far the saved position runs ahead. -/
def step : Nat := min reserveStep (max (n.usable / 4) 1)

/-- `pool.limit`: a quarter of the range, a small range whole. -/
def limit : Nat := min (max (n.usable / 4) (min n.usable 256)) recordLimit

/-- `pool.max`: the records the range holds at most. -/
def most : Nat := if n.limit * 2 < n.usable then n.limit * 2 else n.usable

def address (offset : Nat) : Addr :=
  match n.family with
  | .inet4 => ⟨.inet4, (n.base + offset) % 2 ^ 32, ""⟩
  | .inet6 => ⟨.inet6, n.base / 2 ^ 64 * 2 ^ 64 + (n.base % 2 ^ 64 + offset) % 2 ^ 64, ""⟩

/-- The distance of an address from the network address, as the code computes
it in 32 and in 64 bits. -/
def distance (a : Addr) : Option Nat :=
  match n.family with
  | .inet4 => some ((a.raw + 2 ^ 32 - n.base) % 2 ^ 32)
  | .inet6 =>
    if a.raw / 2 ^ 64 = n.base / 2 ^ 64 then
      some ((a.raw % 2 ^ 64 + 2 ^ 64 - n.base % 2 ^ 64) % 2 ^ 64)
    else none

def offset (a : Addr) : Option Nat :=
  if n.Contains a then
    match n.distance a with
    | some o => if n.stop ≤ o then none else some o
    | none => none
  else none

theorem stop_le : n.stop ≤ 2 ^ 32 - 1 := by
  unfold stop
  split
  · have h := Nat.pow_le_pow_right (n := 2) (by omega) (show n.hostBits ≤ 32 by omega)
    omega
  · exact le_refl _

theorem stop_le_host : n.stop ≤ 2 ^ n.hostBits - 1 := by
  unfold stop
  split
  · exact le_refl _
  · have h := Nat.pow_le_pow_right (n := 2) (by omega) (show 32 ≤ n.hostBits by omega)
    omega

theorem usable_add (h : 0 < n.usable) : firstOffset + n.usable = n.stop := by
  unfold usable at h ⊢
  omega

theorem step_pos : 0 < n.step := by
  unfold step reserveStep
  omega

theorem step_le (h : 0 < n.usable) : n.step ≤ n.usable := by
  unfold step
  omega

variable {o : Nat} {a : Addr}

/-- Adding an offset of the range never carries out of the host bits. -/
theorem base_add_lt (ho : o < n.stop) : n.base + o < 2 ^ n.family.bitLen := by
  have hb : n.hostBits ≤ n.family.bitLen := Nat.sub_le _ _
  have hs := n.stop_le_host
  have hk : n.raw / 2 ^ n.hostBits < 2 ^ (n.family.bitLen - n.hostBits) := by
    rw [Nat.div_lt_iff_lt_mul (Nat.two_pow_pos _), ← Nat.pow_add, Nat.sub_add_cancel hb]
    exact n.raw_lt
  calc n.base + o < n.raw / 2 ^ n.hostBits * 2 ^ n.hostBits + 2 ^ n.hostBits := by
        unfold base; have := Nat.two_pow_pos n.hostBits; omega
    _ = (n.raw / 2 ^ n.hostBits + 1) * 2 ^ n.hostBits := by ring
    _ ≤ 2 ^ (n.family.bitLen - n.hostBits) * 2 ^ n.hostBits := Nat.mul_le_mul_right _ hk
    _ = 2 ^ n.family.bitLen := by rw [← Nat.pow_add, Nat.sub_add_cancel hb]

/-- The low half of an IPv6 network address leaves room for every offset. -/
theorem base_low_add_lt (ho : o < n.stop) : n.base % 2 ^ 64 + o < 2 ^ 64 := by
  have hs := n.stop_le_host
  have h32 := n.stop_le
  have hp := Nat.two_pow_pos n.hostBits
  by_cases hh : n.hostBits ≤ 64
  · have hd : 2 ^ n.hostBits ∣ n.base % 2 ^ 64 := by
      rw [Nat.dvd_mod_iff (Nat.pow_dvd_pow 2 hh)]
      exact Nat.dvd_mul_left _ _
    obtain ⟨c, hc⟩ := hd
    have hlt : n.base % 2 ^ 64 < 2 ^ 64 := Nat.mod_lt _ (by decide)
    have hsplit : (2 : Nat) ^ 64 = 2 ^ n.hostBits * 2 ^ (64 - n.hostBits) := by
      rw [← Nat.pow_add, Nat.add_sub_cancel' hh]
    have hc' : c + 1 ≤ 2 ^ (64 - n.hostBits) := by
      rw [hc, hsplit] at hlt
      exact Nat.lt_of_mul_lt_mul_left hlt
    calc n.base % 2 ^ 64 + o < 2 ^ n.hostBits * c + 2 ^ n.hostBits := by omega
      _ = 2 ^ n.hostBits * (c + 1) := by ring
      _ ≤ 2 ^ n.hostBits * 2 ^ (64 - n.hostBits) := Nat.mul_le_mul_left _ hc'
      _ = 2 ^ 64 := hsplit.symm
  · have hd : 2 ^ 64 ∣ n.base :=
      Nat.dvd_trans (Nat.pow_dvd_pow 2 (by omega)) (Nat.dvd_mul_left _ _)
    rw [Nat.mod_eq_zero_of_dvd hd]
    omega

theorem address_eq (ho : o < n.stop) : n.address o = ⟨n.family, n.base + o, ""⟩ := by
  have hlt := n.base_add_lt ho
  have hlow := n.base_low_add_lt ho
  unfold address
  cases hf : n.family with
  | inet4 =>
    rw [hf] at hlt
    simp only [Addr.mk.injEq, true_and, and_true]
    exact Nat.mod_eq_of_lt hlt
  | inet6 =>
    simp only [Addr.mk.injEq, true_and, and_true]
    rw [Nat.mod_eq_of_lt hlow]
    omega

theorem address_injective {o' : Nat} (ho : o < n.stop) (ho' : o' < n.stop) (h : n.address o = n.address o') :
    o = o' := by
  rw [n.address_eq ho, n.address_eq ho'] at h
  simp only [Addr.mk.injEq, true_and, and_true] at h
  omega

theorem address_family (o : Nat) : (n.address o).family = n.family := by
  unfold address
  cases hf : n.family <;> rfl

theorem contains_address (ho : o < n.stop) : n.Contains (n.address o) := by
  have hs := n.stop_le_host
  rw [n.address_eq ho]
  refine ⟨rfl, rfl, ?_⟩
  show (n.raw / 2 ^ n.hostBits * 2 ^ n.hostBits + o) / 2 ^ n.hostBits = _
  rw [Nat.mul_comm, Nat.mul_add_div (Nat.two_pow_pos _), Nat.div_eq_of_lt (a := o) (by omega), Nat.add_zero]

theorem distance_eq (hc : n.Contains a) (h : n.distance a = some o) :
    a.raw = n.base + o := by
  -- an address inside the range is the network address plus less than the host part
  have hraw : a.raw = n.base + a.raw % 2 ^ n.hostBits := by
    rw [base, ← hc.2.2, Nat.div_add_mod']
  unfold distance at h
  cases hf : n.family with
  | inet4 =>
    have hh : n.hostBits ≤ 32 := by simp [hostBits, hf, Family.bitLen]
    have hlt : a.raw % 2 ^ n.hostBits < 2 ^ 32 :=
      lt_of_lt_of_le (Nat.mod_lt _ (Nat.two_pow_pos _)) (Nat.pow_le_pow_right (by omega) hh)
    simp only [hf, some.injEq] at h
    omega
  | inet6 =>
    simp only [hf] at h
    split at h
    next hhi =>
      simp only [some.injEq] at h
      omega
    · cases h

theorem offset_eq_some (h : n.offset a = some o) :
    o < n.stop ∧ n.Contains a ∧ a = n.address o := by
  unfold offset at h
  split at h
  next hc =>
    split at h
    next d hd =>
      split at h
      · cases h
      next hlt =>
        cases some.inj h
        have hlt' : o < n.stop := by omega
        have hraw := n.distance_eq hc hd
        refine ⟨hlt', hc, ?_⟩
        rw [n.address_eq hlt', ← hraw, ← hc.1, ← hc.2.1]
    · cases h
  · cases h

theorem distance_address (ho : o < n.stop) : n.distance (n.address o) = some o := by
  have hlow := n.base_low_add_lt ho
  have h32 := n.stop_le
  rw [n.address_eq ho]
  unfold distance
  cases hf : n.family with
  | inet4 =>
    simp only [some.injEq]
    omega
  | inet6 =>
    have hhi : (n.base + o) / 2 ^ 64 = n.base / 2 ^ 64 := by omega
    simp only [hhi, ↓reduceIte, some.injEq]
    omega

theorem offset_address (ho : o < n.stop) : n.offset (n.address o) = some o := by
  unfold offset
  rw [if_pos (n.contains_address ho), n.distance_address ho]
  simp only [ite_eq_right_iff, reduceCtorEq, imp_false, not_le]
  exact ho

end Prefix
end SingBox.FakeIP
