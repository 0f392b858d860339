import SingBox.Lib.Transition
import SingBox.FakeIP.Store

/-!
# The store as a transition system

Every label is one critical section. The locks are the guards: `phase` is what
the holder of `saveAccess` is doing, and a label that needs the lock is offered
only while it is free. The clock, the order in which maps are visited and the
outcome of a write are part of the label, so every schedule of them is a run.
-/
namespace SingBox.FakeIP

open SingBox.Lib

/-- What a store is configured with. `Start` refuses a range without an address
to give out, and the options name one IPv4 and one IPv6 range. -/
structure Config where
  casing : Casing
  range : Family → Option Prefix
  family : ∀ f n, range f = some n → n.family = f
  usable : ∀ f n, range f = some n → 0 < n.usable

inductive Phase where
  | idle
  | started (request : Request) (generation : Nat)
  | collected (plan : Plan)
  | written (plan : Plan) (ok : Bool)
  | resetting

structure Sys where
  store : Store
  disk : Disk
  phase : Phase
  found : Option (Family → List Removal)

inductive Label where
  | create (f : Family) (domain : String) (tick : Nat)
  | allocate (f : Family) (domain : String) (tick : Nat)
  | lookup (a : Addr) (tick : Nat)
  | sweepScan (visit : Family → List Nat) (tick : Nat)
  | sweepApply
  | makeRoom (f : Family) (visit : Family → List Nat) (tick : Nat)
  | saveStart (request : Request)
  | saveCollect (visit : Family → List Nat) (tick : Nat)
  | saveWrite (ok : Bool)
  | saveComplete
  | resetStorage (ok : Bool)
  | resetMemory
  | close
  | recreate

def Store.new (cfg : Config) (saved : Bool) (generation : Nat) : Store where
  casing := cfg.casing
  pool := fun f => (cfg.range f).map Pool.new
  saved := saved
  uses := 0
  closed := false
  generation := generation
  storageFailed := false

/-- Where `load` puts a saved row, if it does not refuse it. -/
def Store.accepts (s : Store) (row : Addr × String) : Option (Family × Pool × Nat) :=
  match s.poolOf row.1 with
  | none => none
  | some (f, p) =>
    if row.2 = "" then none
    else
      match p.net.offset row.1 with
      | none => none
      | some o => if o < firstOffset then none else some (f, p, o)

def Store.loadRow (s : Store) (row : Addr × String) : Store :=
  match s.accepts row with
  | none => s
  | some (f, p, o) => s.setPool f (p.give ⟨s.casing.lower row.2, o, 0, false, false⟩)

/-- The position a range goes on from, saved for this very range. -/
def Store.savedPosition (s : Store) (m : Option Metadata) (f : Family) : Option Addr :=
  m.bind fun m => if m.range f = (s.pool f).map Pool.net then m.current f else none

def Pool.reload (p : Pool) (saved : Option Addr) (clean : Bool) : Pool :=
  match p.restore saved (startTick - 1) with
  | (p, some last) =>
    if clean then p else p.hold last ((startTick - 1 - (idleTicks - protectTicks)) * 2 ^ 32)
  | (p, none) => p

/-- `load`, up to its save: the rows that were read, the position and whether it
was saved by a clean stop. -/
def Store.load (cfg : Config) (generation : Nat) (rows : List (Addr × String)) (m : Option Metadata)
    (clean : Bool) : Store :=
  let s := rows.foldl Store.loadRow (Store.new cfg true generation)
  s.mapPools fun f p => p.reload (s.savedPosition m f) clean

namespace Disk

def rows (d : Disk) : List (Addr × String) := d.table.entries.map fun e => (e.1, e.2)

/-- The position of a clean stop comes first. -/
def metadata (d : Disk) : Option Metadata := d.clean.orElse fun _ => d.cursor

/-- What a load without error leaves in the file. -/
def afterLoad (d : Disk) (refused : List Addr) : Disk := { refused.foldl delete d with clean := none }

end Disk

/-- The rows of the file `load` refuses, for the ranges of the configuration. -/
def Config.refused (cfg : Config) (d : Disk) : List Addr :=
  (d.rows.filter fun row => ((Store.new cfg true 0).accepts row).isNone).map Prod.fst

def Sys.loaded (cfg : Config) (d : Disk) : Sys where
  store := .load cfg d.generation d.rows d.metadata d.clean.isSome
  disk := d.afterLoad (cfg.refused d)
  phase := .idle
  found := none

namespace Sys

variable (x : Sys)

def visits (visit : Family → List Nat) : Bool :=
  [Family.inet4, .inet6].all fun f =>
    match x.store.pool f with | some p => (visit f).isPerm p.byOffset.keys | none => true

/-- The part of `save` under the lock of the pools, before the write. -/
def collect (r : Request) (generation : Nat) (visit : Family → List Nat) (tick : Nat) : Sys :=
  if x.store.closed && !r.clean then { x with phase := .idle }
  else
    let s := x.store.renew generation
    if (r.reserve || r.room.isSome) && !s.needed r then { x with store := s, phase := .idle }
    else
      let (s, plan) := s.plan r visit tick
      { x with store := s, phase := if plan.empty then .idle else .collected plan }

def step : Label → Option Sys
  | .create f domain tick => some { x with store := (x.store.create f domain tick).1 }
  | .allocate f domain tick =>
    match x.store.allocate f domain tick x.disk.generation with
    | (_, .spin) => none
    | (s, _) => some { x with store := s }
  | .lookup a tick => some { x with store := (x.store.lookup a tick).1 }
  | .sweepScan visit tick =>
    if x.found.isNone && x.visits visit then
      some { x with found := some (x.store.findExpired visit tick) }
    else none
  | .sweepApply => x.found.map fun found => { x with store := x.store.expire found, found := none }
  | .makeRoom f visit tick =>
    if !x.store.saved && x.visits visit then
      some { x with store := x.store.makeRoom f (visit f) tick }
    else none
  | .saveStart r =>
    match x.phase with
    | .idle =>
      -- the last save of `Close` comes after the store was closed
      if x.store.saved && (!r.clean || x.store.closed) then
        some { x with phase := .started r x.disk.generation }
      else none
    | _ => none
  | .saveCollect visit tick =>
    match x.phase with
    | .started r generation =>
      if x.visits visit then some (x.collect r generation visit tick) else none
    | _ => none
  | .saveWrite ok =>
    match x.phase with
    | .collected plan =>
      some { x with
        disk := if ok then x.disk.saveChanges plan.puts plan.deletes plan.metadata plan.request.clean
          else x.disk
        phase := .written plan ok }
    | _ => none
  | .saveComplete =>
    match x.phase with
    | .written plan ok =>
      some { x with store := if ok then x.store.complete plan else x.store.abandon plan, phase := .idle }
    | _ => none
  | .resetStorage ok =>
    match x.phase with
    | .idle =>
      if !x.store.saved then some { x with phase := .resetting }
      else if ok then some { x with disk := x.disk.reset, phase := .resetting }
      else some x
    | _ => none
  | .resetMemory =>
    match x.phase with
    | .resetting => some { x with store := x.store.forgetAll, phase := .idle }
    | _ => none
  | .close => some { x with store := { x.store with closed := true } }
  | .recreate => some { x with disk := x.disk.recreate }

end Sys

/-- The store started without a storage. -/
def Unsaved (cfg : Config) (x : Sys) : Prop :=
  ∃ d, x = { store := .new cfg false 0, disk := d, phase := .idle, found := none }

/-- The store loaded from any file without an error. -/
def Loaded (cfg : Config) (x : Sys) : Prop := ∃ d, x = .loaded cfg d

/-- The store started with a storage, of which it could read any part. -/
def Opened (cfg : Config) (x : Sys) : Prop := ∃ d generation rows m clean,
  x = { store := .load cfg generation rows m clean, disk := d, phase := .idle, found := none }

/-- The store started in any way. -/
def Started (cfg : Config) (x : Sys) : Prop := Unsaved cfg x ∨ Opened cfg x

def machine (init : Sys → Prop) : System Sys Label where
  init := init
  step := Sys.step

def slash30 : Config where
  casing := .ascii
  range := fun f => if f = .inet4 then some ⟨.inet4, 3323068416, 30, by decide, by decide⟩ else none
  family := by
    intro f n h
    cases f <;> cases h
    rfl
  usable := by
    intro f n h
    cases f <;> cases h
    decide

end SingBox.FakeIP
