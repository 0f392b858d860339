import Mathlib.Tactic.Set
import SingBox.Lib.Wire

/-!
# What the cache file keeps of a rule set

`adapter.SavedBinary` and its binary form, the record of a rule set whose content is in a file of
its own, and the name of that file.
-/
namespace SingBox.RuleSet

open Lib.Wire List

/-- `time.Time`: the seconds of `Unix()` as the bits of an `int64`, and the nanoseconds in the second. -/
structure Time where
  unix : UInt64
  nanosecond : Nat
  deriving DecidableEq

structure SavedBinary where
  content : Slice
  lastUpdated : Time
  lastEtag : Slice
  urlHash : Slice
  deriving DecidableEq

def noBytes : Slice := ⟨[], by decide⟩

namespace SavedBinary

/-- What the binary form keeps: the time is written in seconds. -/
def stored (s : SavedBinary) : SavedBinary := { s with lastUpdated := ⟨s.lastUpdated.unix, 0⟩ }

def marshalBinary (s : SavedBinary) : List UInt8 :=
  2 :: (appendSlice s.content ++ (bigEndian 8 s.lastUpdated.unix.toNat ++
    (appendSlice s.lastEtag ++ appendSlice s.urlHash)))

/-- `UnmarshalBinary`; the first version has no hash of the URL. -/
def unmarshalBinary : List UInt8 → Except String SavedBinary
  | [] => .error "EOF"
  | version :: data => do
    let (content, data) ← readSlice "content" data
    let (unix, data) ← readBigEndian 8 data
    let (lastEtag, data) ← readSlice "etag" data
    let saved := { content, lastUpdated := ⟨UInt64.ofNat unix, 0⟩, lastEtag, urlHash := noBytes }
    if version < 2 then return saved
    let (urlHash, _) ← readSlice "url hash" data
    return { saved with urlHash }

end SavedBinary

/-- The size of the content, and the rest of the `SavedBinary` without it. -/
def ruleSetRecord (set : SavedBinary) : List UInt8 :=
  1 :: (appendUvarint 10 set.content.1.length ++ { set with content := noBytes }.marshalBinary)

def parseRuleSetRecord : List UInt8 → Except String (SavedBinary × Nat)
  | [] => .error "EOF"
  | version :: record => do
    if version ≠ 1 then throw s!"unknown version of a rule-set record: {version}"
    let (size, rest) ← readUvarint record
    let saved ← SavedBinary.unmarshalBinary rest
    return (saved, size)

/-- The cache ID, behind a zero byte if there is one, and the tag of a rule set. -/
abbrev Key := List UInt8 × String

def nameChar (char : Char) : Char :=
  if 'a' ≤ char ∧ char ≤ 'z' ∨ 'A' ≤ char ∧ char ≤ 'Z' ∨ '0' ≤ char ∧ char ≤ '9' ∨ char = '-' ∨ char = '_' ∨ char = '.'
  then char else '_'

def hexDigit (n : Nat) : Char := "0123456789abcdef".toList.getD n '0'

def encodeHex (bytes : List UInt8) : List Char :=
  bytes.flatMap fun b => [hexDigit (b.toNat / 16), hexDigit (b.toNat % 16)]

/-- `ruleSetFileName`, with `sha256` for the hash. -/
def ruleSetFileName (sha256 : List UInt8 → List UInt8) (key : Key) : String :=
  String.ofList ((key.2.toList.take 64).map nameChar ++
    '-' :: encodeHex ((sha256 (key.1 ++ 0 :: key.2.toUTF8.toList)).take 4))

/-- The file a content is written to before it is complete. -/
def writingName (name : String) : String := name ++ ".new"

theorem unmarshalBinary_marshalBinary (s : SavedBinary) :
    SavedBinary.unmarshalBinary s.marshalBinary = .ok s.stored := by
  have hunix : s.lastUpdated.unix.toNat < 256 ^ 8 := s.lastUpdated.unix.toNat_lt
  have hhash := readSlice_append "url hash" s.urlHash []
  rw [append_nil] at hhash
  have hbig := readBigEndian_append (by decide) hunix
  simp [SavedBinary.marshalBinary, SavedBinary.unmarshalBinary, SavedBinary.stored, readSlice_append, hbig, hhash, bind,
    Except.bind, pure, Except.pure]

theorem parseRuleSetRecord_ruleSetRecord (set : SavedBinary) :
    parseRuleSetRecord (ruleSetRecord set) = .ok ({ set with content := noBytes }.stored, set.content.1.length) := by
  simp [parseRuleSetRecord, ruleSetRecord, readUvarint_append set.content.2, unmarshalBinary_marshalBinary, bind,
    Except.bind, pure, Except.pure]

theorem hexDigit_ne (n : Nat) : hexDigit n ≠ 'w' := by
  have hall : ∀ c ∈ "0123456789abcdef".toList, c ≠ 'w' := by simp
  rw [hexDigit, getD_eq_getElem?_getD]
  cases hc : "0123456789abcdef".toList[n]? with
  | none => decide
  | some c => exact hall c (mem_of_getElem? hc)

theorem encodeHex_ne (bytes : List UInt8) : ∀ c ∈ encodeHex bytes, c ≠ 'w' := by
  intro c hc
  obtain ⟨b, _, hc⟩ := mem_flatMap.mp hc
  rcases mem_cons.mp hc with rfl | hc
  · exact hexDigit_ne _
  · rw [mem_singleton.mp hc]
    exact hexDigit_ne _

theorem ruleSetFileName_ne_writingName (sha256 : List UInt8 → List UInt8) (key : Key) (name : String) :
    ruleSetFileName sha256 key ≠ writingName name := by
  intro h
  have hchars := congrArg String.toList h
  rw [ruleSetFileName, writingName, String.toList_ofList, String.toList_append] at hchars
  set hex := encodeHex ((sha256 (key.1 ++ 0 :: key.2.toUTF8.toList)).take 4) with hhex
  have hlast := congrArg getLast? hchars
  rw [getLast?_append, getLast?_append, getLast?_cons] at hlast
  have hw : hex.getLast?.getD '-' = 'w' := by simpa using hlast
  cases hc : hex.getLast? with
  | none => simp [hc] at hw
  | some c =>
    rw [hc] at hw
    exact encodeHex_ne _ c (mem_of_getLast? hc) hw

end SingBox.RuleSet
