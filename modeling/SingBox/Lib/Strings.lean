import Mathlib.Data.List.Basic

/-!
# Byte strings

The functions on byte strings that parsers of links are made of: cutting, trimming, letter case,
percent escapes and base64.
-/
namespace SingBox.Lib.Strings

abbrev Bytes := List UInt8

def ascii (s : String) : Bytes := s.toUTF8.toList

/-- What is before the first `sep`, what is behind it, and whether there is one. -/
def cut (sep : UInt8) (s : Bytes) : Bytes × Bytes × Bool :=
  (s.takeWhile (· != sep), (s.dropWhile (· != sep)).drop 1, s.contains sep)

@[simp] theorem cut_fst (sep : UInt8) (s : Bytes) : (cut sep s).1 = s.takeWhile (· != sep) := rfl

theorem head?_splitOn (sep : UInt8) (s : Bytes) : (s.splitOn sep).head? = some (s.takeWhile (· != sep)) := by
  induction s with
  | nil => rfl
  | cons b s ih =>
    rw [List.splitOn_cons_eq_if_modifyHead]
    by_cases hb : b = sep
    · simp [hb]
    · simp [hb, List.head?_modifyHead, ih]

/-- The last `sep` cuts. -/
def cutLast (sep : UInt8) (s : Bytes) : Option (Bytes × Bytes) :=
  if s.contains sep then
    some (((s.reverse.dropWhile (· != sep)).drop 1).reverse, (s.reverse.takeWhile (· != sep)).reverse)
  else none

/-- The characters of `unicode.IsSpace` in UTF-8. -/
def spaces : List Bytes :=
  [[9], [10], [11], [12], [13], [32], [0xC2, 0x85], [0xC2, 0xA0], [0xE1, 0x9A, 0x80], [0xE2, 0x80, 0x80],
    [0xE2, 0x80, 0x81], [0xE2, 0x80, 0x82], [0xE2, 0x80, 0x83], [0xE2, 0x80, 0x84], [0xE2, 0x80, 0x85],
    [0xE2, 0x80, 0x86], [0xE2, 0x80, 0x87], [0xE2, 0x80, 0x88], [0xE2, 0x80, 0x89], [0xE2, 0x80, 0x8A],
    [0xE2, 0x80, 0xA8], [0xE2, 0x80, 0xA9], [0xE2, 0x80, 0xAF], [0xE2, 0x81, 0x9F], [0xE3, 0x80, 0x80]]

/-- Take the strings of `chars` off the front, at most `fuel` times. -/
def trimLeft (chars : List Bytes) : Nat → Bytes → Bytes
  | 0, s => s
  | fuel + 1, s =>
    match chars.find? fun c => c.isPrefixOf s with
    | none => s
    | some c => trimLeft chars fuel (s.drop c.length)

def trimSpace (s : Bytes) : Bytes :=
  let s := trimLeft spaces s.length s
  (trimLeft (spaces.map List.reverse) s.length s.reverse).reverse

def trimPrefix (start s : Bytes) : Bytes := if start.isPrefixOf s then s.drop start.length else s

def lower (b : UInt8) : UInt8 := if 65 ≤ b ∧ b ≤ 90 then b + 32 else b

/-- `strings.ToLower`, as far as it may give ASCII: the only other letters with an ASCII letter in lower
case are `U+0130` and `U+212A`. -/
def toLower : Bytes → Bytes
  | 0xC4 :: 0xB0 :: s => 105 :: toLower s
  | 0xE2 :: 0x84 :: 0xAA :: s => 107 :: toLower s
  | b :: s => lower b :: toLower s
  | [] => []

def hexValue (b : UInt8) : Option UInt8 :=
  if 48 ≤ b ∧ b ≤ 57 then some (b - 48)
  else if 97 ≤ b ∧ b ≤ 102 then some (b - 97 + 10)
  else if 65 ≤ b ∧ b ≤ 70 then some (b - 65 + 10)
  else none

/-- Percent escapes; `plus` says that a plus is a blank. -/
def unescape (plus : Bool) : Bytes → Option Bytes
  | [] => some []
  | 37 :: high :: low :: s =>
    match hexValue high, hexValue low with
    | some h, some l => (unescape plus s).map ((h * 16 + l) :: ·)
    | _, _ => none
  | b :: s => if b = 37 then none else (unescape plus s).map ((if plus ∧ b = 43 then 32 else b) :: ·)

def queryUnescape : Bytes → Option Bytes := unescape true

def pathUnescape : Bytes → Option Bytes := unescape false

/-- The place of a character in the alphabet of base64, `last` having the characters of 62 and 63. -/
def base64Value (last : UInt8 × UInt8) (b : UInt8) : Option Nat :=
  if 65 ≤ b ∧ b ≤ 90 then some (b - 65).toNat
  else if 97 ≤ b ∧ b ≤ 122 then some ((b - 97).toNat + 26)
  else if 48 ≤ b ∧ b ≤ 57 then some ((b - 48).toNat + 52)
  else if b = last.1 then some 62
  else if b = last.2 then some 63
  else none

/-- Base64 without padding. -/
def decodeBase64Raw (last : UInt8 × UInt8) : Bytes → Option Bytes
  | [] => some []
  | [_] => none
  | [a, b] => do
    let x := (← base64Value last a) * 64 + (← base64Value last b)
    return [UInt8.ofNat (x / 16)]
  | [a, b, c] => do
    let x := ((← base64Value last a) * 64 + (← base64Value last b)) * 64 + (← base64Value last c)
    return [UInt8.ofNat (x / 1024), UInt8.ofNat (x / 4)]
  | a :: b :: c :: d :: s => do
    let x := (((← base64Value last a) * 64 + (← base64Value last b)) * 64 + (← base64Value last c)) * 64 +
      (← base64Value last d)
    let rest ← decodeBase64Raw last s
    return UInt8.ofNat (x / 65536) :: UInt8.ofNat (x / 256) :: UInt8.ofNat x :: rest

def standard : UInt8 × UInt8 := (43, 47)

def urlSafe : UInt8 × UInt8 := (45, 95)

end SingBox.Lib.Strings
