import SingBox.NetIP.Prefix
import SingBox.Lib.Wire

/-!
# Addresses as bytes

`As4`, `As16` and their inverses, and `Unmap`.
-/
namespace SingBox.NetIP.Addr

open SingBox.Lib.Wire

/-- The first `n` bytes of a slice that has them. -/
def octets (n : Nat) (bytes : List UInt8) : Vector UInt8 n := Vector.ofFn fun i => bytes.getD i 0

def addrFrom4 (bytes : List UInt8) : Addr := .v4 (octets 4 bytes)

def addrFrom16 (bytes : List UInt8) : Addr :=
  .v6 (Vector.ofFn fun i => UInt16.ofNat (ofBigEndian ((bytes.drop (2 * i)).take 2)))

def as16 (groups : Vector UInt16 8) : List UInt8 := groups.toList.flatMap fun group => bigEndian 2 group.toNat

def unmap : Addr → Addr
  | .v6 groups => if is4In6 groups then addrFrom4 (octets4In6 groups) else .v6 groups
  | addr => addr

theorem octets_toList {n : Nat} (v : Vector UInt8 n) : octets n v.toList = v := by
  ext i hi
  simp [octets]

@[simp] theorem addrFrom4_toList (v : Vector UInt8 4) : addrFrom4 v.toList = .v4 v := by
  rw [addrFrom4, octets_toList]

@[simp] theorem length_as16 (groups : Vector UInt16 8) : (as16 groups).length = 16 := by
  simp [as16, List.length_flatMap]

@[simp] theorem addrFrom16_as16 (groups : Vector UInt16 8) : addrFrom16 (as16 groups) = .v6 groups := by
  rw [addrFrom16, Addr.v6.injEq]
  ext i hi
  have hgroup : ((as16 groups).drop (2 * i)).take 2 = bigEndian 2 groups[i].toNat := by
    rw [as16, take_drop_flatMap (fun _ => length_bigEndian 2 _) _ i (by simpa using hi)]
    simp
  rw [Vector.getElem_ofFn, hgroup, ofBigEndian_bigEndian groups[i].toNat_lt, UInt16.ofNat_toNat]

end SingBox.NetIP.Addr
