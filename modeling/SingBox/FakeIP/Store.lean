import SingBox.FakeIP.Pool

/-!
# The store and its storage

`Store` in memory, the table it saves (the cache file) and the critical
sections of `Create`, `Lookup`, `sweep`, `save`, `Reset` and `load`. A save is
cut where the code releases the lock of the pools: reading the generation,
collecting the changes, writing them, and completing them in memory.
-/
namespace SingBox.FakeIP

open SingBox.Lib

def idleTicks : Nat := 864000
def protectTicks : Nat := 36000
def startTick : Nat := idleTicks + 2

/-- `adapter.FakeIPMetadata`, the ranges and the positions by family. -/
structure Metadata where
  range : Family → Option Prefix
  current : Family → Option Addr

/-- The cache file. `clean` is the position written where older versions read
it, present only after a clean stop; `cursor` is written by every save. -/
structure Disk where
  table : AList (fun _ : Addr => String)
  cursor : Option Metadata
  clean : Option Metadata
  generation : Nat

namespace Disk

def put (d : Disk) (row : Addr × String) : Disk := { d with table := d.table.insert row.1 row.2 }

def delete (d : Disk) (a : Addr) : Disk := { d with table := d.table.erase a }

def saveChanges (d : Disk) (puts : List (Addr × String)) (deletes : List Addr) (m : Metadata)
    (clean : Bool) : Disk :=
  { puts.foldl put (deletes.foldl delete d) with
    cursor := some m
    clean := if clean then some m else none }

def reset (d : Disk) : Disk := { d with table := ∅, clean := none }

/-- A damaged file is recreated: everything saved before is gone. -/
def recreate (d : Disk) : Disk := ⟨∅, none, none, d.generation + 1⟩

end Disk

structure Request where
  clean : Bool := false
  reserve : Bool := false
  room : Option Family := none
  deriving DecidableEq

/-- The range of the request is the one the query found full. -/
def Request.roomOf (r : Request) (f : Family) : Bool := r.room == some f

structure PoolPlan where
  removals : List Removal
  deletes : List Addr
  written : List Nat
  puts : List (Addr × String)
  last : Nat
  reserve : Option Nat

structure Plan where
  request : Request
  generation : Nat
  pools : Family → Option PoolPlan
  metadata : Metadata

namespace Pool

variable (p : Pool)

/-- The cache file was recreated: the table and the reserve go there again. -/
def resave : Pool :=
  let records := (p.byOffset.keys.filterMap p.byOffset.lookup).filter fun r => !(p.heap r).held
  { p with
    reserved := false
    budget := 0
    forgotten := []
    heap := fun r => if r ∈ records then { p.heap r with dirty := true } else p.heap r
    dirty := records }

def markRemoval (clean : Bool) (acc : Pool × List Removal) (c : Removal) : Pool × List Removal :=
  let x := acc.1.heap c.record
  if clean || x.removing || !acc.1.current c.record || x.lastUse != c.lastUse then acc
  else (acc.1.update c.record fun x => { x with removing := true }, acc.2 ++ [c])

/-- The removals a save begins: the candidates that are still there and unused. -/
def markRemovals (clean : Bool) : Pool × List Removal :=
  p.expired.foldl (markRemoval clean) (p, [])

def pending : List Nat := p.dirty.filter fun r => (p.heap r).dirty && p.current r

/-- The position a save writes, and the start of the reserve it opens. -/
def savePosition (clean : Bool) : Nat × Option Nat :=
  if clean then
    (if p.next = firstOffset then firstOffset - 1 else p.ahead p.next (p.net.usable - 1), none)
  else if !p.reserved || p.budget == 0 || p.budget < p.net.step / 2 then
    (p.ahead p.next (p.net.step - 1), some p.advanced)
  else (p.reserveLast, none)

/-- The records that make room join the expired ones. -/
def chooseRoom (room : Bool) (visit : List Nat) (tick : Nat) : Pool :=
  if room && p.full then { p with expired := p.expired ++ p.oldest visit p.room 0 tick } else p

def snapshot (clean room : Bool) (visit : List Nat) (tick : Nat) : Pool × PoolPlan :=
  let (q, removals) := (p.chooseRoom room visit tick).markRemovals clean
  let pending := q.pending
  let written := pending.filter fun r => !(q.heap r).removing
  let (last, reserve) := q.savePosition clean
  ({ q with expired := [], dirty := pending.filter fun r => (q.heap r).removing },
    { removals := removals
      deletes := removals.map (fun c => q.net.address (q.heap c.record).offset) ++
        (q.forgotten.filter fun o => (q.byOffset.lookup o).isNone).map q.net.address
      written := written
      puts := written.map fun r => (q.net.address (q.heap r).offset, (q.heap r).domain)
      last := last
      reserve := reserve })

def settle (p : Pool) (r : Nat) : Pool := p.update r fun x => { x with dirty := false }

def unmark (p : Pool) (c : Removal) : Pool := p.update c.record fun x => { x with removing := false }

/-- A removal that was written: the record goes unless it was used meanwhile. -/
def finishRemoval (p : Pool) (c : Removal) : Pool :=
  let q := p.unmark c
  if !q.current c.record then q
  else if (q.heap c.record).lastUse != c.lastUse then
    if (q.heap c.record).dirty then q
    else { q.update c.record (fun x => { x with dirty := true }) with dirty := q.dirty ++ [c.record] }
  else q.remove c.record

def openReserve (reserve : Option Nat) (last : Nat) : Pool :=
  match reserve with
  | none => p
  | some start =>
    { p with
      reserved := true
      reserveLast := last
      budget := p.net.step - min (p.advanced - start) p.net.step }

def complete (plan : PoolPlan) : Pool :=
  let p := plan.written.foldl settle p
  let p := plan.removals.foldl finishRemoval { p with forgotten := [] }
  p.openReserve plan.reserve plan.last

/-- A record that makes room while the storage cannot be written. -/
def forget (p : Pool) (c : Removal) : Pool :=
  if !p.current c.record || (p.heap c.record).lastUse != c.lastUse then p
  else
    let q := p.remove c.record
    if (p.heap c.record).dirty then q
    else { q with forgotten := q.forgotten ++ [(p.heap c.record).offset] }

def abandon (room : Bool) (plan : PoolPlan) : Pool :=
  let p := plan.removals.foldl unmark { p with dirty := p.dirty ++ plan.written }
  if room && p.full then plan.removals.foldl forget p else p

/-- Move over one offset of the ring. -/
def advance (saved : Bool) : Pool :=
  { p with
    next := p.after p.next
    advanced := p.advanced + 1
    budget := if saved then p.budget - 1 else p.budget }

inductive Found where
  | free (offset : Nat)
  | reserve
  | spin

/-- The loop of `allocate`, one round of the ring at most: after that every
offset was seen in use. -/
def search (saved failed : Bool) : Nat → Pool → Pool × Found
  | 0, p => (p, .spin)
  | rounds + 1, p =>
    if saved && p.budget == 0 && !failed then (p, .reserve)
    else
      match p.byOffset.lookup p.next with
      | some _ => search saved failed rounds (p.advance saved)
      | none => (p.advance saved, .free p.next)

def assign (saved : Bool) (domain : String) (offset stamp : Nat) : Pool :=
  let r := p.fresh
  let q := p.give ⟨domain, offset, stamp, saved, false⟩
  { q with
    byName := q.byName.insert domain r
    dirty := if saved then q.dirty ++ [r] else q.dirty }

end Pool

structure Store where
  casing : Casing
  pool : Family → Option Pool
  saved : Bool
  uses : Nat
  closed : Bool
  generation : Nat
  storageFailed : Bool

inductive Answer where
  | address (a : Addr)
  | needReserve
  | needRoom
  | closed
  | missingRange
  | spin
  deriving DecidableEq

namespace Store

variable (s : Store)

def setPool (f : Family) (p : Pool) : Store := { s with pool := Function.update s.pool f (some p) }

def nextUse : Nat := (s.uses + 1) % 2 ^ 32

def stamp (tick : Nat) : Nat := tick * 2 ^ 32 + s.nextUse

def touch (f : Family) (p : Pool) (r tick : Nat) : Store :=
  { s.setPool f (p.touch r (s.stamp tick)) with uses := s.nextUse }

def poolOf (a : Addr) : Option (Family × Pool) :=
  match s.pool .inet4 with
  | some p => if p.net.Contains a then some (.inet4, p) else poolOf6
  | none => poolOf6
where
  poolOf6 : Option (Family × Pool) :=
    match s.pool .inet6 with
    | some p => if p.net.Contains a then some (.inet6, p) else none
    | none => none

/-- The first lookup of `Create`, under the read lock. -/
def create (f : Family) (domain : String) (tick : Nat) : Store × Option Answer :=
  match s.pool f with
  | none => (s, some .missingRange)
  | some p =>
    match p.byName.lookup (s.casing.lower domain) with
    | some r => (s.touch f p r tick, some (.address (p.net.address (p.heap r).offset)))
    | none => (s, none)

/-- `allocate` for the domain of a `Create`; `generation` is the one of the storage. -/
def allocate (f : Family) (domain : String) (tick generation : Nat) : Store × Answer :=
  match s.pool f with
  | none => (s, .missingRange)
  | some p =>
    let domain := s.casing.lower domain
    match p.byName.lookup domain with
    | some r => (s.touch f p r tick, .address (p.net.address (p.heap r).offset))
    | none =>
      if s.closed then (s, .closed)
      else if p.full then (s, .needRoom)
      else if s.saved && generation != s.generation then (s, .needReserve)
      else
        match p.search s.saved s.storageFailed p.net.usable with
        | (p, .spin) => (s.setPool f p, .spin)
        | (p, .reserve) => (s.setPool f p, .needReserve)
        | (p, .free offset) =>
          ({ s.setPool f (p.assign s.saved domain offset (s.stamp tick)) with uses := s.nextUse },
            .address (p.net.address offset))

def lookup (a : Addr) (tick : Nat) : Store × Option String :=
  match s.poolOf a with
  | none => (s, none)
  | some (f, p) =>
    match p.net.offset a with
    | none => (s, none)
    | some o =>
      match p.byOffset.lookup o with
      | none => (s, none)
      | some r =>
        if (p.heap r).held then (s, none)
        else (s.touch f p r tick, some (p.heap r).domain)

def mapPools (g : Family → Pool → Pool) : Store :=
  { s with pool := fun f => (s.pool f).map (g f) }

/-- `makeRoom` of a store without a storage. -/
def makeRoom (f : Family) (visit : List Nat) (tick : Nat) : Store :=
  s.mapPools fun g p =>
    if g = f ∧ p.full then (p.oldest visit p.room 0 tick).foldl (fun p c => p.remove c.record) p
    else p

def findExpired (visit : Family → List Nat) (tick : Nat) (f : Family) : List Removal :=
  match s.pool f with
  | none => []
  | some p => p.findExpired (visit f) idleTicks protectTicks tick

def release (p : Pool) (c : Removal) : Pool :=
  if p.current c.record && (p.heap c.record).lastUse == c.lastUse then p.remove c.record else p

/-- The second half of `sweep`: with a storage the next save removes the records. -/
def expire (found : Family → List Removal) : Store :=
  s.mapPools fun f p =>
    if s.saved then { p with expired := p.expired ++ found f } else (found f).foldl release p

def forgetAll : Store :=
  s.mapPools fun _ p =>
    { p with byName := ∅, byOffset := ∅, dirty := [], expired := [], forgotten := [] }

/-- A save from a query that cannot go on writes only if nobody has seen to it. -/
def needed (r : Request) : Bool :=
  (match r.room.bind s.pool with | some p => p.full | none => false) ||
    [Family.inet4, .inet6].any fun f =>
      match s.pool f with | some p => !p.reserved || p.budget == 0 | none => false

def renew (generation : Nat) : Store :=
  if generation = s.generation then s
  else { s.mapPools fun _ p => p.resave with generation := generation }

def plan (r : Request) (visit : Family → List Nat) (tick : Nat) : Store × Plan :=
  let taken (f : Family) := (s.pool f).map fun p => p.snapshot r.clean (r.roomOf f) (visit f) tick
  ({ s with pool := fun f => (taken f).map Prod.fst },
    { request := r
      generation := s.generation
      pools := fun f => (taken f).map Prod.snd
      metadata :=
        { range := fun f => (s.pool f).map Pool.net
          current := fun f => (taken f).map fun x => x.1.net.address x.2.last } })

end Store

namespace Plan

variable (plan : Plan)

def puts : List (Addr × String) :=
  [Family.inet4, .inet6].flatMap fun f => ((plan.pools f).map PoolPlan.puts).getD []

def deletes : List Addr :=
  [Family.inet4, .inet6].flatMap fun f => ((plan.pools f).map PoolPlan.deletes).getD []

def changed : Bool :=
  plan.request.clean || [Family.inet4, .inet6].any fun f =>
    match plan.pools f with | some q => q.reserve.isSome | none => false

def empty : Bool := plan.puts.isEmpty && plan.deletes.isEmpty && !plan.changed

end Plan

namespace Store

variable (s : Store)

def complete (plan : Plan) : Store :=
  { s with
    storageFailed := false
    pool := fun f =>
      match s.pool f, plan.pools f with
      | some p, some q => some (p.complete q)
      | p, _ => p }

def abandon (plan : Plan) : Store :=
  { s with
    storageFailed := true
    pool := fun f =>
      match s.pool f, plan.pools f with
      | some p, some q => some (p.abandon (plan.request.roomOf f) q)
      | p, _ => p }

end Store
end SingBox.FakeIP
