import Mathlib.Algebra.Order.Group.Nat

/-!
# Numbers and strings in binary records

Base-128 varints of at most ten bytes, big-endian numbers of a fixed width, and strings behind
their length. Reading takes what writing put in front of any rest.
-/
namespace SingBox.Lib.Wire

open List

/-- A string of bytes whose length is a 64-bit number. -/
abbrev Slice := { bytes : List UInt8 // bytes.length < 2 ^ 64 }

/-- At most `left` bytes; ten are enough for a 64-bit number. -/
def appendUvarint : Nat → Nat → List UInt8
  | 0, _ => []
  | left + 1, x => if x < 128 then [UInt8.ofNat x] else UInt8.ofNat (x % 128 + 128) :: appendUvarint left (x / 128)

def overflow : String := "binary: varint overflows a 64-bit integer"

/-- The rest of a varint with `left` bytes left. The last one may hold one bit. -/
def readUvarintRest : Nat → List UInt8 → Except String (Nat × List UInt8)
  | 0, _ => .error overflow
  | _ + 1, [] => .error "unexpected EOF"
  | left + 1, b :: rest =>
    if b.toNat < 128 then if left = 0 ∧ 1 < b.toNat then .error overflow else .ok (b.toNat, rest)
    else
      match readUvarintRest left rest with
      | .error err => .error err
      | .ok (x, rest) => .ok (b.toNat % 128 + 128 * x, rest)

def readUvarint : List UInt8 → Except String (Nat × List UInt8)
  | [] => .error "EOF"
  | b :: rest => readUvarintRest 10 (b :: rest)

/-- The lowest `width` bytes of `x`, the highest first. -/
def bigEndian : Nat → Nat → List UInt8
  | 0, _ => []
  | width + 1, x => UInt8.ofNat (x / 256 ^ width) :: bigEndian width x

def ofBigEndian (bytes : List UInt8) : Nat := bytes.foldl (fun x b => 256 * x + b.toNat) 0

def readBigEndian (width : Nat) (bytes : List UInt8) : Except String (Nat × List UInt8) :=
  if bytes = [] then .error "EOF"
  else if bytes.length < width then .error "unexpected EOF"
  else .ok (ofBigEndian (bytes.take width), bytes.drop width)

def appendSlice (s : Slice) : List UInt8 := appendUvarint 10 s.1.length ++ s.1

variable {x width left : Nat} {bytes rest : List UInt8}

theorem readUvarintRest_lt (h : readUvarintRest (left + 1) bytes = .ok (x, rest)) : x < 2 * 128 ^ left := by
  induction left generalizing bytes x rest with
  | zero =>
    cases bytes with
    | nil => cases h
    | cons b bytes =>
      by_cases hb : b.toNat < 128
      · by_cases hone : 1 < b.toNat
        · simp [readUvarintRest, hb, hone] at h
        · simp [readUvarintRest, hb, hone] at h
          omega
      · simp [readUvarintRest, hb] at h
  | succ left ih =>
    cases bytes with
    | nil => cases h
    | cons b bytes =>
      rw [readUvarintRest] at h
      by_cases hb : b.toNat < 128
      · simp only [hb, if_true, Nat.add_one_ne_zero, false_and, if_false, Except.ok.injEq, Prod.mk.injEq] at h
        have : 0 < 128 ^ left := Nat.pow_pos (by omega)
        rw [pow_succ]
        omega
      · simp only [hb, if_false] at h
        cases hr : readUvarintRest (left + 1) bytes with
        | error err => simp [hr] at h
        | ok next =>
          obtain ⟨y, next⟩ := next
          have hy := ih hr
          simp only [hr, Except.ok.injEq, Prod.mk.injEq] at h
          rw [pow_succ]
          omega

theorem readUvarint_lt (h : readUvarint bytes = .ok (x, rest)) : x < 2 ^ 64 := by
  cases bytes with
  | nil => cases h
  | cons b bytes => exact readUvarintRest_lt h

/-- A string behind its length; `what` names it in the error. -/
def readSlice (what : String) (bytes : List UInt8) : Except String (Slice × List UInt8) :=
  match h : readUvarint bytes with
  | .error err => .error err
  | .ok (length, rest) =>
    if length > rest.length then .error s!"invalid {what} length: {length}"
    else .ok (⟨rest.take length, (length_take_le length rest).trans_lt (readUvarint_lt h)⟩, rest.drop length)

theorem readUvarintRest_append (h : x < 2 * 128 ^ left) (rest : List UInt8) :
    readUvarintRest (left + 1) (appendUvarint (left + 1) x ++ rest) = .ok (x, rest) := by
  induction left generalizing x with
  | zero =>
    have hx : x % 256 = x := by omega
    have hone : ¬ 1 < x := by omega
    have hb : x < 128 := by omega
    simp [appendUvarint, readUvarintRest, hb, hx, hone]
  | succ left ih =>
    rw [appendUvarint]
    by_cases hb : x < 128
    · have hx : x % 256 = x := by omega
      simp [readUvarintRest, hb, hx]
    · have hx : (x % 128 + 128) % 256 = x % 128 + 128 := by omega
      have hrest := ih (x := x / 128) (by rw [pow_succ] at h; omega)
      rw [if_neg hb, cons_append, readUvarintRest, UInt8.toNat_ofNat', hx, if_neg (by omega), hrest]
      simp only [Except.ok.injEq, Prod.mk.injEq, and_true]
      omega

theorem appendUvarint_ne_nil (left x : Nat) : appendUvarint (left + 1) x ≠ [] := by
  rw [appendUvarint]
  split <;> simp

theorem readUvarint_append (h : x < 2 ^ 64) (rest : List UInt8) :
    readUvarint (appendUvarint 10 x ++ rest) = .ok (x, rest) := by
  have hread : readUvarintRest 10 (appendUvarint 10 x ++ rest) = .ok (x, rest) := readUvarintRest_append h rest
  cases hbytes : appendUvarint 10 x ++ rest with
  | nil => exact absurd (append_eq_nil_iff.mp hbytes).1 (appendUvarint_ne_nil 9 x)
  | cons b bytes =>
    rw [hbytes] at hread
    exact hread

@[simp] theorem length_bigEndian (width x : Nat) : (bigEndian width x).length = width := by
  induction width with
  | zero => rfl
  | succ width ih => rw [bigEndian, length_cons, ih]

theorem foldl_bigEndian (width x start : Nat) :
    (bigEndian width x).foldl (fun x b => 256 * x + b.toNat) start = 256 ^ width * start + x % 256 ^ width := by
  induction width generalizing start with
  | zero => simp [bigEndian, Nat.mod_one]
  | succ width ih =>
    have hmod : x % 256 ^ (width + 1) = 256 ^ width * (x / 256 ^ width % 256) + x % 256 ^ width := by
      rw [pow_succ, Nat.mod_mul, Nat.add_comm]
    rw [bigEndian, foldl_cons, ih, hmod, UInt8.toNat_ofNat', pow_succ 256 width]
    rw [Nat.mul_add, Nat.mul_assoc, Nat.add_assoc]

theorem ofBigEndian_bigEndian (h : x < 256 ^ width) : ofBigEndian (bigEndian width x) = x := by
  rw [ofBigEndian, foldl_bigEndian, Nat.mul_zero, Nat.zero_add, Nat.mod_eq_of_lt h]

theorem readBigEndian_append (hw : width ≠ 0) (h : x < 256 ^ width) (rest : List UInt8) :
    readBigEndian width (bigEndian width x ++ rest) = .ok (x, rest) := by
  have hlength := length_bigEndian width x
  have hne : bigEndian width x ++ rest ≠ [] := by
    intro hnil
    rw [(append_eq_nil_iff.mp hnil).1] at hlength
    exact hw hlength.symm
  have htake : (bigEndian width x ++ rest).take width = bigEndian width x := by
    rw [take_append_of_le_length hlength.ge, take_of_length_le hlength.le]
  have hdrop : (bigEndian width x ++ rest).drop width = rest := by
    rw [drop_append_of_le_length hlength.ge, drop_of_length_le hlength.le, nil_append]
  rw [readBigEndian, if_neg hne, if_neg (by simp), htake, hdrop, ofBigEndian_bigEndian h]

theorem readSlice_append (what : String) (s : Slice) (rest : List UInt8) :
    readSlice what (appendSlice s ++ rest) = .ok (s, rest) := by
  have hread : readUvarint (appendSlice s ++ rest) = .ok (s.1.length, s.1 ++ rest) := by
    rw [appendSlice, append_assoc]
    exact readUvarint_append s.2 (s.1 ++ rest)
  unfold readSlice
  split
  next err herr =>
    rw [hread] at herr
    cases herr
  next length after hlength =>
    rw [hread] at hlength
    obtain ⟨rfl, rfl⟩ := Prod.mk.inj (Except.ok.inj hlength)
    simp

/-- Every group of equal width stands at its place. -/
theorem take_drop_flatMap {β γ : Type} {f : β → List γ} (hf : ∀ b, (f b).length = width) (l : List β) (i : Nat)
    (hi : i < l.length) : ((l.flatMap f).drop (width * i)).take width = f l[i] := by
  induction l generalizing i with
  | nil => cases hi
  | cons b l ih =>
    cases i with
    | zero => simp [hf]
    | succ i =>
      have hdrop : ((b :: l).flatMap f).drop (width * (i + 1)) = (l.flatMap f).drop (width * i) := by
        rw [flatMap_cons, Nat.mul_succ, Nat.add_comm, ← drop_drop, ← hf b, drop_left, hf b]
      rw [hdrop]
      exact ih i (Nat.lt_of_succ_lt_succ hi)

end SingBox.Lib.Wire
