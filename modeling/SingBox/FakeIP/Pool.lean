import Mathlib.Data.List.AList
import Mathlib.Data.List.Sort
import SingBox.Lib.Ring
import SingBox.FakeIP.Address

/-!
# One address range of the store

A translation of `pool` and its methods. Records are shared by pointer between
the indexes and the lists of pending work, so they live in a heap and are named
by their place in it; comparing two pointers is comparing two places. Where the
source ranges over a map, the order of the visit is an argument.
-/
namespace SingBox.FakeIP

open SingBox.Lib

/-- `strings.ToLower`, as far as the store depends on it. -/
structure Casing where
  lower : String → String
  lower_lower : ∀ s, lower (lower s) = lower s
  lower_eq_empty : ∀ s, lower s = "" ↔ s = ""

theorem toNat_toLower (c : Char) :
    c.toLower.toNat = if 65 ≤ c.toNat ∧ c.toNat ≤ 90 then c.toNat + 32 else c.toNat := by
  unfold Char.toLower
  split
  next h =>
    have h' : 65 ≤ c.toNat ∧ c.toNat ≤ 90 := by
      simpa [UInt32.le_iff_toNat_le, ← Char.toNat_val] using h
    rw [if_pos h']
    show (c.val + ('a'.val - 'A'.val)).toNat = c.toNat + 32
    rw [UInt32.toNat_add, show ('a'.val - 'A'.val).toNat = 32 by decide]
    exact Nat.mod_eq_of_lt (by show c.toNat + 32 < _; omega)
  next h =>
    have h' : ¬ (65 ≤ c.toNat ∧ c.toNat ≤ 90) := by
      simpa [UInt32.le_iff_toNat_le, ← Char.toNat_val] using h
    rw [if_neg h']

theorem toLower_toLower (c : Char) : c.toLower.toLower = c.toLower := by
  apply Char.toNat_inj.mp
  rw [toNat_toLower c.toLower, toNat_toLower c]
  by_cases h : 65 ≤ c.toNat ∧ c.toNat ≤ 90
  · simp only [if_pos h]
    rw [if_neg (by omega)]
  · simp only [if_neg h]

/-- `strings.ToLower` on names of ASCII letters. -/
def Casing.ascii : Casing where
  lower s := String.ofList (s.toList.map Char.toLower)
  lower_lower := by
    intro s
    rw [String.toList_ofList, List.map_map]
    congr 2
    funext c
    exact toLower_toLower c
  lower_eq_empty := by
    intro s
    constructor
    · intro h
      have hl := congrArg String.toList h
      simpa using hl
    · rintro rfl
      rfl

structure Record where
  domain : String
  offset : Nat
  lastUse : Nat
  dirty : Bool
  removing : Bool
  deriving DecidableEq, Repr

def Record.held (r : Record) : Bool := r.domain == ""

def useTick (lastUse : Nat) : Nat := lastUse / 2 ^ 32

def since (now lastUse : Nat) : Nat := if useTick lastUse < now then now - useTick lastUse else 0

structure Removal where
  record : Nat
  lastUse : Nat
  deriving DecidableEq, Repr

structure Pool where
  net : Prefix
  heap : Nat → Record
  fresh : Nat
  byName : AList (fun _ : String => Nat)
  byOffset : AList (fun _ : Nat => Nat)
  next : Nat
  advanced : Nat
  budget : Nat
  reserved : Bool
  reserveLast : Nat
  dirty : List Nat
  expired : List Removal
  forgotten : List Nat

namespace Pool

def new (net : Prefix) : Pool where
  net := net
  heap := fun _ => ⟨"", 0, 0, false, false⟩
  fresh := 0
  byName := ∅
  byOffset := ∅
  next := firstOffset
  advanced := 0
  budget := 0
  reserved := false
  reserveLast := 0
  dirty := []
  expired := []
  forgotten := []

variable (p : Pool)

def size : Nat := p.byOffset.keys.length

def full : Bool := p.net.most ≤ p.size

def room : Nat := max (p.size / 16) 1

def after (offset : Nat) : Nat := Ring.after firstOffset p.net.usable offset

def ahead (offset count : Nat) : Nat := Ring.ahead firstOffset p.net.usable offset count

/-- The record is the one the range leads its offset to. -/
def current (r : Nat) : Bool := p.byOffset.lookup (p.heap r).offset == some r

def update (r : Nat) (f : Record → Record) : Pool :=
  { p with heap := Function.update p.heap r (f (p.heap r)) }

@[simp] theorem update_same (r : Nat) (f : Record → Record) : (p.update r f).heap r = f (p.heap r) := by
  simp [update]

theorem update_other (r : Nat) (f : Record → Record) {k : Nat} (h : k ≠ r) :
    (p.update r f).heap k = p.heap k := by
  simp [update, h]

theorem update_heap (r : Nat) (f : Record → Record) (k : Nat) :
    (p.update r f).heap k = if k = r then f (p.heap k) else p.heap k := by
  by_cases h : k = r
  · subst h; simp
  · simp [p.update_other r f h, h]

def touch (r stamp : Nat) : Pool := p.update r fun x => { x with lastUse := stamp }

def remove (r : Nat) : Pool :=
  { p with
    byOffset := p.byOffset.erase (p.heap r).offset
    byName :=
      if !(p.heap r).held && p.byName.lookup (p.heap r).domain == some r then
        p.byName.erase (p.heap r).domain
      else p.byName }

/-- A new record, in the indexes it belongs to. -/
def give (r : Record) : Pool :=
  { p with
    heap := Function.update p.heap p.fresh r
    fresh := p.fresh + 1
    byOffset := p.byOffset.insert r.offset p.fresh }

/-- How many addresses ago an offset was given out, seen from `next`. -/
def age (next offset : Nat) : Nat :=
  (next - firstOffset + p.net.usable - 1 - (offset - firstOffset)) % p.net.usable

/-- One record of `restore`: its time of use, and its name if it is the later one. -/
def restoreRecord (next tick : Nat) (p : Pool) (r : Nat) : Pool :=
  let x := p.heap r
  let p := p.touch r (tick * 2 ^ 32 + (p.net.usable - 1 - p.age next x.offset))
  match p.byName.lookup x.domain with
  | none => { p with byName := p.byName.insert x.domain r }
  | some other =>
    if p.age next x.offset < p.age next (p.heap other).offset then
      { p with byName := p.byName.insert x.domain r }
    else p

def highest (offsets : List Nat) : Nat := offsets.foldl max 0

/-- The position allocation goes on from, and the offset of the saved position. -/
def position (saved : Option Addr) : Nat × Option Nat :=
  match saved.bind p.net.offset with
  | some last => (p.after last, some last)
  | none =>
    if p.byOffset.keys = [] then (firstOffset, none)
    else (p.after (highest p.byOffset.keys), none)

def restore (saved : Option Addr) (tick : Nat) : Pool × Option Nat :=
  let (next, last) := p.position saved
  ((p.byOffset.keys.filterMap p.byOffset.lookup).foldl (restoreRecord next tick) { p with next := next },
    last)

def holdOffset (lastUse : Nat) (p : Pool) (offset : Nat) : Pool :=
  match p.byOffset.lookup offset with
  | some _ => p
  | none => p.give ⟨"", offset, lastUse, false, false⟩

def hold (last lastUse : Nat) : Pool :=
  if last < firstOffset then p
  else ((List.range p.net.step).map fun back => p.ahead last (p.net.usable - back)).foldl
    (holdOffset lastUse) p

def removal (r : Nat) : Removal := ⟨r, (p.heap r).lastUse⟩

/-- The records the map leads to, in the order of a visit of its keys. -/
def visited (visit : List Nat) : List Nat := visit.filterMap p.byOffset.lookup

def candidates (visit : List Nat) (protect tick : Nat) : List Removal :=
  ((p.visited visit).filter fun r =>
    !(p.heap r).removing && !(p.heap r).held && protect ≤ since tick (p.heap r).lastUse).map p.removal

def heldBack (visit : List Nat) : List Removal :=
  ((p.visited visit).filter fun r => !(p.heap r).removing && (p.heap r).held).map p.removal

def oldest (visit : List Nat) (count protect tick : Nat) : List Removal :=
  let found := p.candidates visit protect tick
  let found := if found = [] ∧ protect = 0 then p.heldBack visit else found
  (found.insertionSort fun a b => a.lastUse ≤ b.lastUse).take count

/-- The records `sweep` finds in one range. -/
def findExpired (visit : List Nat) (idleTicks protectTicks tick : Nat) : List Removal :=
  let expired := ((p.visited visit).filter fun r =>
    !(p.heap r).removing && idleTicks ≤ since tick (p.heap r).lastUse).map p.removal
  if p.net.limit < p.size - expired.length then
    p.oldest visit (p.size - (p.net.limit - p.net.limit / 8)) protectTicks tick
  else expired

end Pool
end SingBox.FakeIP
