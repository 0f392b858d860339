import SingBox.Lib.Text
import Mathlib.Data.List.DropRight
import Mathlib.Data.List.TakeWhile

/-!
# Address prefixes and their texts

`netip.Addr` and `netip.Prefix` as far as a client subnet uses them. A valid prefix can be
read back from its text; an invalid one may still hold an address.
-/
namespace SingBox.NetIP

open SingBox.Lib

/-- `netip.Addr` without a zone: nothing, four octets or eight groups. -/
inductive Addr where
  | zero
  | v4 (octets : Vector UInt8 4)
  | v6 (groups : Vector UInt16 8)
  deriving DecidableEq

namespace Addr

def bitLen : Addr → Nat
  | .zero => 0
  | .v4 _ => 32
  | .v6 _ => 128

/-- The octets of an IPv4 address in IPv6. -/
def octets4In6 (groups : Vector UInt16 8) : List UInt8 :=
  [(groups[6] >>> 8).toUInt8, groups[6].toUInt8, (groups[7] >>> 8).toUInt8, groups[7].toUInt8]

def is4In6 (groups : Vector UInt16 8) : Bool := (groups.toList.take 6) == [0, 0, 0, 0, 0, 0xffff]

def string4 (octets : List UInt8) : List UInt8 := join 46 (octets.map fun o => formatUint 10 o.toNat)

def appendHex (group : UInt16) : List UInt8 := formatUint 16 group.toNat

/-- The first of the longest runs of zero groups from group `i` on, if it is longer than `best`. -/
def longestZeros (groups : List UInt16) (i : Nat) (best : Nat × Nat) : Nat → Nat × Nat
  | 0 => best
  | fuel + 1 =>
    let j := i + ((groups.drop i).takeWhile (· == 0)).length
    longestZeros groups (i + 1) (if 2 ≤ j - i ∧ best.2 - best.1 < j - i then (i, j) else best) fuel

/-- The parts of the text of an IPv6 address between its colons; an empty part makes the `::`. -/
def parts6 (groups : List UInt16) : List (List UInt8) :=
  let (zeroStart, zeroEnd) := longestZeros groups 0 (0, 0) groups.length
  if zeroStart = zeroEnd then groups.map appendHex
  else
    let before := (groups.take zeroStart).map appendHex
    let behind := (groups.drop zeroEnd).map appendHex
    (if before.isEmpty then [[]] else before) ++ [[]] ++ if behind.isEmpty then [[]] else behind

def string : Addr → List UInt8
  | .zero => "invalid IP".toUTF8.toList
  | .v4 octets => string4 octets.toList
  | .v6 groups =>
    if is4In6 groups then join 58 [[], [], [102, 102, 102, 102], string4 (octets4In6 groups)]
    else join 58 (parts6 groups.toList)

end Addr

/-- `netip.Prefix`: an address and its length, which is kept for a prefix that is valid only. -/
structure Prefix where
  ip : Addr
  bits : Option Nat
  bits_le : ∀ n ∈ bits, ip ≠ .zero ∧ n ≤ ip.bitLen

namespace Prefix

theorem ext' {p q : Prefix} (hip : p.ip = q.ip) (hbits : p.bits = q.bits) : p = q := by
  cases p
  cases q
  cases hip
  cases hbits
  rfl

instance : DecidableEq Prefix := fun p q =>
  decidable_of_iff (p.ip = q.ip ∧ p.bits = q.bits) ⟨fun h => ext' h.1 h.2, fun h => h ▸ ⟨rfl, rfl⟩⟩

def prefixFrom (ip : Addr) (bits : Nat) : Prefix where
  ip := ip
  bits := if ip ≠ .zero ∧ bits ≤ ip.bitLen then some bits else none
  bits_le := by
    intro n hn
    split at hn
    · cases hn
      assumption
    · cases hn

def zero : Prefix := ⟨.zero, none, nofun⟩

def isValid (p : Prefix) : Bool := p.bits.isSome

def string (p : Prefix) : List UInt8 :=
  match p.bits with
  | none => "invalid Prefix".toUTF8.toList
  | some bits => p.ip.string ++ 47 :: formatUint 10 bits

end Prefix

/-! ### Reading a text back -/

namespace Addr

/-- A run of zero groups. -/
def ZeroRun (groups : List UInt16) (run : Nat × Nat) : Prop :=
  run.1 = run.2 ∨ (run.1 < run.2 ∧
    groups = groups.take run.1 ++ List.replicate (run.2 - run.1) 0 ++ groups.drop run.2)

theorem zeroRun_takeWhile (groups : List UInt16) (i : Nat) :
    groups = groups.take i ++ List.replicate ((groups.drop i).takeWhile (· == 0)).length 0 ++
      groups.drop (i + ((groups.drop i).takeWhile (· == 0)).length) := by
  have hzeros : (groups.drop i).takeWhile (· == 0) = List.replicate ((groups.drop i).takeWhile (· == 0)).length 0 := by
    refine List.eq_replicate_of_mem fun g hg => ?_
    simpa using List.mem_takeWhile_imp hg
  have hdrop : (groups.drop i).dropWhile (· == 0) =
      groups.drop (i + ((groups.drop i).takeWhile (· == 0)).length) := by
    rw [← List.drop_drop]
    have hleft := @List.drop_left _ ((groups.drop i).takeWhile (· == 0)) ((groups.drop i).dropWhile (· == 0))
    rw [List.takeWhile_append_dropWhile] at hleft
    exact hleft.symm
  rw [← hzeros, ← hdrop, List.append_assoc, List.takeWhile_append_dropWhile, List.take_append_drop]

variable {a : Addr} {groups : List UInt16}

theorem zeroRun_longestZeros {i fuel : Nat} {best : Nat × Nat} (hbest : ZeroRun groups best) :
    ZeroRun groups (longestZeros groups i best fuel) := by
  induction fuel generalizing i best with
  | zero => exact hbest
  | succ fuel ih =>
    rw [longestZeros]
    refine ih ?_
    split
    · rename_i hlonger
      refine .inr ⟨by omega, ?_⟩
      have := zeroRun_takeWhile groups i
      simpa using this
    · exact hbest

theorem appendHex_ne_nil (g : UInt16) : appendHex g ≠ [] := formatUint_ne_nil 16 _

def readHex (text : List UInt8) : UInt16 := UInt16.ofNat (Nat.ofDigits 16 (text.map digitValue).reverse)

theorem readHex_appendHex (g : UInt16) : readHex (appendHex g) = g := by
  rw [readHex, appendHex, ofDigits_formatUint (by decide) (by decide), UInt16.ofNat_toNat]

theorem map_readHex (groups : List UInt16) : (groups.map appendHex).map readHex = groups := by
  rw [List.map_map]
  conv_rhs => rw [← List.map_id groups]
  exact List.map_congr_left fun g _ => readHex_appendHex g

/-- The groups of an address from the parts of its text. -/
def readParts (count : Nat) (parts : List (List UInt8)) : List UInt16 :=
  if parts.all fun part => !part.isEmpty then parts.map readHex
  else
    let before := parts.takeWhile fun part => !part.isEmpty
    let behind := parts.rtakeWhile fun part => !part.isEmpty
    before.map readHex ++ List.replicate (count - before.length - behind.length) 0 ++ behind.map readHex

variable {l : List (List UInt8)} {part octets : List UInt8} {b : Addr}

theorem takeWhile_padded (hl : ∀ x ∈ l, x ≠ []) (rest : List (List UInt8)) :
    ((if l.isEmpty then [[]] else l) ++ [] :: rest).takeWhile (fun part => !part.isEmpty) = l := by
  cases l with
  | nil => rfl
  | cons x l =>
    rw [if_neg (by simp), List.takeWhile_append_of_pos (by simpa using hl)]
    simp

theorem rtakeWhile_padded (hl : ∀ x ∈ l, x ≠ []) (rest : List (List UInt8)) :
    (rest ++ [] :: if l.isEmpty then [[]] else l).rtakeWhile (fun part => !part.isEmpty) = l := by
  have hreverse : ∀ x ∈ l.reverse, x ≠ [] := fun x hx => hl x (List.mem_reverse.mp hx)
  have hpad : (if l.isEmpty then [[]] else l).reverse = if l.reverse.isEmpty then [[]] else l.reverse := by
    cases l <;> simp
  have := takeWhile_padded hreverse rest.reverse
  rw [← hpad] at this
  rw [List.rtakeWhile]
  simpa using congrArg List.reverse this

theorem mem_map_appendHex : ∀ part ∈ groups.map appendHex, part ≠ [] := by
  intro part hpart
  obtain ⟨g, _, rfl⟩ := List.mem_map.mp hpart
  exact appendHex_ne_nil g

theorem readParts_parts6 (groups : List UInt16) : readParts groups.length (parts6 groups) = groups := by
  have hstart : ZeroRun groups (0, 0) := .inl rfl
  have hrun : ZeroRun groups (longestZeros groups 0 (0, 0) groups.length) := zeroRun_longestZeros hstart
  unfold parts6
  generalize longestZeros groups 0 (0, 0) groups.length = run at hrun
  obtain ⟨zeroStart, zeroEnd⟩ := run
  dsimp only
  split
  · rw [readParts, if_pos (by simpa using mem_map_appendHex), map_readHex]
  rename_i hne
  rcases hrun with heq | ⟨hlt, hgroups⟩
  · exact absurd heq hne
  rw [readParts, if_neg (by simp)]
  simp only [List.append_assoc, List.singleton_append]
  rw [takeWhile_padded mem_map_appendHex, rtakeWhile_padded mem_map_appendHex, map_readHex, map_readHex]
  have hcount := congrArg List.length hgroups
  simp only [List.length_append, List.length_replicate] at hcount
  rw [List.length_map, List.length_map, show groups.length - (groups.take zeroStart).length -
    (groups.drop zeroEnd).length = zeroEnd - zeroStart by omega, ← List.append_assoc]
  exact hgroups.symm

theorem parts6_inj {groups' : List UInt16} (hlength : groups.length = groups'.length)
    (h : parts6 groups = parts6 groups') : groups = groups' := by
  rw [← readParts_parts6 groups, h, hlength, readParts_parts6]

theorem plain_appendHex (g : UInt16) : ∀ x ∈ appendHex g, 48 ≤ x.toNat ∧ x ≠ 58 := by
  intro x hx
  obtain ⟨hle, hne⟩ := mem_formatUint (by decide) (by decide) hx
  exact ⟨hle, fun h => hne (by rw [h]; rfl)⟩

theorem mem_parts6 (h : part ∈ parts6 groups) :
    ∀ x ∈ part, 48 ≤ x.toNat ∧ x ≠ 58 := by
  have hpad : ∀ {l : List (List UInt8)}, part ∈ (if l.isEmpty then [[]] else l) → part = [] ∨ part ∈ l := by
    intro l hl
    split at hl
    · exact .inl (List.mem_singleton.mp hl)
    · exact .inr hl
  have hmap : ∀ {l : List UInt16}, part ∈ l.map appendHex → ∀ x ∈ part, 48 ≤ x.toNat ∧ x ≠ 58 := by
    intro l hl
    obtain ⟨g, _, rfl⟩ := List.mem_map.mp hl
    exact plain_appendHex g
  unfold parts6 at h
  dsimp only at h
  split at h
  · exact hmap h
  rw [List.mem_append, List.mem_append, List.mem_singleton] at h
  rcases h with (h | h) | h
  · rcases hpad h with rfl | h
    · nofun
    · exact hmap h
  · rw [h]
    nofun
  · rcases hpad h with rfl | h
    · nofun
    · exact hmap h

theorem mem_string4 : ∀ x ∈ string4 octets, x = 46 ∨ (48 ≤ x.toNat ∧ x ≠ 58) := by
  intro x hx
  rcases mem_join hx with h | ⟨part, hpart, h⟩
  · exact .inl h
  · obtain ⟨o, _, rfl⟩ := List.mem_map.mp hpart
    obtain ⟨hle, hne⟩ := mem_formatUint (by decide) (by decide) h
    exact .inr ⟨hle, fun heq => hne (by rw [heq]; rfl)⟩

theorem string4_inj {octets' : List UInt8} (hne : octets ≠ []) (hne' : octets' ≠ [])
    (h : string4 octets = string4 octets') : octets = octets' := by
  have hfree : ∀ {l : List UInt8}, ∀ part ∈ l.map fun o => formatUint 10 o.toNat, (46 : UInt8) ∉ part := by
    intro l part hpart hdot
    obtain ⟨o, _, rfl⟩ := List.mem_map.mp hpart
    have := (mem_formatUint (by decide) (by decide) hdot).1
    simp at this
  have hmap := join_inj (by simpa using hne) (by simpa using hne') hfree hfree h
  refine (List.map_inj_right fun o o' ho => ?_).mp hmap
  exact UInt8.toNat_inj.mp (formatUint_inj (by decide) (by decide) ho)

/-- The parts of the text of an address between its colons. -/
def parts : Addr → List (List UInt8)
  | .zero => []
  | .v4 octets => [string4 octets.toList]
  | .v6 groups =>
    if is4In6 groups then [[], [], [102, 102, 102, 102], string4 (octets4In6 groups)] else parts6 groups.toList

theorem string_eq_join (ha : a ≠ .zero) : a.string = join 58 a.parts := by
  cases a with
  | zero => exact absurd rfl ha
  | v4 octets => rfl
  | v6 groups =>
    simp only [string, parts]
    split <;> rfl

theorem mem_parts (h : part ∈ a.parts) :
    ∀ x ∈ part, x = 46 ∨ (48 ≤ x.toNat ∧ x ≠ 58) := by
  cases a with
  | zero => cases h
  | v4 octets =>
    rw [parts, List.mem_singleton] at h
    exact h ▸ mem_string4
  | v6 groups =>
    rw [parts] at h
    split at h
    · simp only [List.mem_cons, List.not_mem_nil, or_false] at h
      rcases h with rfl | rfl | rfl | rfl
      · nofun
      · nofun
      · simp
      · exact mem_string4
    · exact fun x hx => .inr (mem_parts6 h x hx)

theorem length_parts6 (groups : List UInt16) (h : 2 ≤ groups.length) : 2 ≤ (parts6 groups).length := by
  unfold parts6
  dsimp only
  split
  · simpa using h
  · have hpad : ∀ {l : List (List UInt8)}, 1 ≤ (if l.isEmpty then [[]] else l).length := by
      intro l
      cases l <;> simp
    rw [List.length_append, List.length_append]
    exact Nat.le_trans (Nat.add_le_add (Nat.le_add_left 1 _) hpad) (Nat.le_refl _)

theorem parts_ne_nil (ha : a ≠ .zero) : a.parts ≠ [] := by
  cases a with
  | zero => exact absurd rfl ha
  | v4 octets => exact List.cons_ne_nil _ _
  | v6 groups =>
    rw [parts]
    split
    · exact List.cons_ne_nil _ _
    · have := length_parts6 groups.toList (by simp)
      intro h
      rw [h] at this
      simp at this

theorem dot_mem_string4 (groups : Vector UInt16 8) : (46 : UInt8) ∈ string4 (octets4In6 groups) := by
  simp [string4, octets4In6, join]

theorem is4In6_ext {groups groups' : Vector UInt16 8} (h : is4In6 groups = true) (h' : is4In6 groups' = true)
    (hoctets : octets4In6 groups = octets4In6 groups') : groups = groups' := by
  simp only [octets4In6, List.cons.injEq, and_true] at hoctets
  obtain ⟨h1, h2, h3, h4⟩ := hoctets
  have hsix := uint16_ext h1 h2
  have hseven := uint16_ext h3 h4
  have htake : groups.toList.take 6 = groups'.toList.take 6 := by
    rw [is4In6, beq_iff_eq] at h h'
    rw [h, h']
  have hdrop : groups.toList.drop 6 = groups'.toList.drop 6 := by
    have htwo : ∀ v : Vector UInt16 8, v.toList.drop 6 = [v[6], v[7]] := by
      intro v
      refine List.ext_getElem (by simp) fun i hi _ => ?_
      have hlt : i < 2 := by simpa using hi
      rcases i with _ | _ | i
      · simp
      · simp
      · omega
    rw [htwo, htwo, hsix, hseven]
  apply Vector.toList_inj.mp
  rw [← List.take_append_drop 6 groups.toList, htake, hdrop, List.take_append_drop]

theorem parts_inj (ha : a ≠ .zero) (hb : b ≠ .zero) (h : a.parts = b.parts) : a = b := by
  have hlonger : ∀ groups : Vector UInt16 8, 2 ≤ (parts (.v6 groups)).length := by
    intro groups
    rw [parts]
    split
    · simp
    · exact length_parts6 groups.toList (by simp)
  -- an IPv4 address in IPv6 has a dot in its text
  have hdot : ∀ groups groups' : Vector UInt16 8, is4In6 groups = true → is4In6 groups' = false →
      parts (.v6 groups) ≠ parts (.v6 groups') := by
    intro groups groups' h4 h6 heq
    rw [parts, parts, if_pos h4, if_neg (by simp [h6])] at heq
    have hmem : string4 (octets4In6 groups) ∈ parts6 groups'.toList := by simp [← heq]
    have := (mem_parts6 hmem 46 (dot_mem_string4 groups)).1
    simp at this
  cases a with
  | zero => exact absurd rfl ha
  | v4 octets =>
    cases b with
    | zero => exact absurd rfl hb
    | v4 octets' =>
      simp only [parts, List.cons.injEq, and_true] at h
      have hne : ∀ v : Vector UInt8 4, v.toList ≠ [] := by
        intro v hv
        have := congrArg List.length hv
        simp at this
      rw [Vector.toList_inj.mp (string4_inj (hne octets) (hne octets') h)]
    | v6 groups =>
      have := hlonger groups
      rw [← h] at this
      simp [parts] at this
  | v6 groups =>
    cases b with
    | zero => exact absurd rfl hb
    | v4 octets =>
      have := hlonger groups
      rw [h] at this
      simp [parts] at this
    | v6 groups' =>
      cases h4 : is4In6 groups with
      | true =>
        cases h4' : is4In6 groups' with
        | true =>
          simp only [parts, h4, h4', if_true, List.cons.injEq, and_true, true_and] at h
          have hoctets := string4_inj (by simp [octets4In6]) (by simp [octets4In6]) h
          rw [is4In6_ext h4 h4' hoctets]
        | false => exact absurd h (hdot groups groups' h4 h4')
      | false =>
        cases h4' : is4In6 groups' with
        | true => exact absurd h.symm (hdot groups' groups h4' h4)
        | false =>
          simp only [parts, h4, h4', Bool.false_eq_true, if_false] at h
          rw [Vector.toList_inj.mp (parts6_inj (by simp) h)]

theorem string_inj (ha : a ≠ .zero) (hb : b ≠ .zero) (h : a.string = b.string) : a = b := by
  have hfree : ∀ {a : Addr}, ∀ part ∈ a.parts, (58 : UInt8) ∉ part := by
    intro a part hpart hcolon
    rcases mem_parts hpart 58 hcolon with hdot | ⟨_, hne⟩
    · exact absurd hdot (by decide)
    · exact hne rfl
  rw [string_eq_join ha, string_eq_join hb] at h
  exact parts_inj ha hb (join_inj (parts_ne_nil ha) (parts_ne_nil hb) hfree hfree h)

theorem mem_string (ha : a ≠ .zero) : ∀ x ∈ a.string, 46 ≤ x.toNat ∧ x ≠ 47 := by
  intro x hx
  rw [string_eq_join ha] at hx
  have hsolidus : x = 46 ∨ 48 ≤ x.toNat → 46 ≤ x.toNat ∧ x ≠ 47 := by
    rintro (rfl | h)
    · decide
    · refine ⟨by omega, ?_⟩
      rintro rfl
      simp at h
  rcases mem_join hx with h | ⟨part, hpart, h⟩
  · exact hsolidus (.inr (by rw [h]; decide))
  · exact hsolidus ((mem_parts hpart x h).imp_right And.left)

end Addr

namespace Prefix

variable {p : Prefix}

theorem string_inj {q : Prefix} (hp : p.isValid = true) (hq : q.isValid = true) (h : p.string = q.string) :
    p = q := by
  obtain ⟨n, hn⟩ := Option.isSome_iff_exists.mp hp
  obtain ⟨m, hm⟩ := Option.isSome_iff_exists.mp hq
  have hpz := (p.bits_le n hn).1
  have hqz := (q.bits_le m hm).1
  simp only [string, hn, hm] at h
  obtain ⟨hip, hbits⟩ := append_inj_of_all (p := fun x : UInt8 => x ≠ 47) (fun x hx => (Addr.mem_string hpz x hx).2)
    (fun x hx => (Addr.mem_string hqz x hx).2) (by simp) (by simp) h
  rw [List.cons.injEq] at hbits
  refine ext' (Addr.string_inj hpz hqz hip) ?_
  rw [hn, hm, formatUint_inj (by decide) (by decide) hbits.2]

theorem mem_string (hp : p.isValid = true) : ∀ x ∈ p.string, 46 ≤ x.toNat := by
  obtain ⟨n, hn⟩ := Option.isSome_iff_exists.mp hp
  intro x hx
  simp only [string, hn, List.mem_append, List.mem_cons] at hx
  rcases hx with hx | rfl | hx
  · exact (Addr.mem_string (p.bits_le n hn).1 x hx).1
  · decide
  · have := (mem_formatUint (by decide) (by decide) hx).1
    omega

end Prefix
end SingBox.NetIP
