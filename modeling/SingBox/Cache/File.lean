import SingBox.Lib.Transition
import Mathlib.Logic.Function.Basic

/-!
# The DNS cache of the cache file

`queueDNSCacheSave`, the loop of `flushPendingDNSCacheWith` and `ClearDNSCache` as a
transition system over the pending map and the database. A step is what runs under one
lock or in one transaction.
-/
namespace SingBox.Cache

open SingBox.Lib Function

/-- A Go string. -/
abbrev Bytes := List UInt8

structure SaveCacheKey where
  transportName : Bytes
  questionName : Bytes
  qType : UInt16
  deriving DecidableEq

/-- The key of a row: the type in two bytes, and the name. -/
def SaveCacheKey.rowKey (k : SaveCacheKey) : Bytes := (k.qType >>> 8).toUInt8 :: k.qType.toUInt8 :: k.questionName

variable {β : Type}

/-- A message and when it expires, in nanoseconds. -/
structure Value (β : Type) where
  rawMessage : β
  expireAt : Int
  deriving DecidableEq

/-- What a row keeps of a value: the time is in seconds. -/
def Value.stored (v : Value β) : Value β := { v with expireAt := v.expireAt / 1000000000 * 1000000000 }

/-- `saveDNSCacheEntry`. -/
structure Entry (β : Type) where
  value : Value β
  sequence : UInt64
  saving : Bool

/-- The bucket of the DNS cache: for each transport its rows. -/
abbrev Database (β : Type) := Bytes → Bytes → Option (Value β)

/-- Where a flusher stands in its loop. -/
inductive Flusher (β : Type) where
  | reading
  | saving (entry : Entry β)
  | comparing (entry : Entry β)
  | returned

def Flusher.running : Flusher β → Bool
  | .returned => false
  | _ => true

/-- `clearing` counts the calls of `ClearDNSCache` between its two steps. -/
structure File (β : Type) where
  saveDNSCache : SaveCacheKey → Option (Entry β)
  database : Database β
  flushers : List (SaveCacheKey × Flusher β)
  clearing : Nat

inductive Label (β : Type) where
  | queue (key : SaveCacheKey) (value : Value β)
  | flush (flusher : Nat) (fails : Bool)
  | clearPending
  | clearDatabase

namespace File

variable (c : File β)

def start (database : Database β) : File β := ⟨fun _ => none, database, [], 0⟩

def loadRow (k : SaveCacheKey) : Option (Value β) := c.database k.transportName k.rowKey

def loadDNSCache (k : SaveCacheKey) : Option (Value β) :=
  match c.saveDNSCache k with
  | some entry => some entry.value
  | none => c.loadRow k

/-- `SaveDNSCache`. -/
def saveRow (k : SaveCacheKey) (v : Value β) : File β :=
  let rows := update (c.database k.transportName) k.rowKey (some v.stored)
  { c with database := update c.database k.transportName rows }

/-- `queueDNSCacheSave`, and the flusher `SaveDNSCacheAsync` starts if there is none. -/
def queueDNSCacheSave (k : SaveCacheKey) (v : Value β) : File β :=
  let (sequence, saving) :=
    match c.saveDNSCache k with
    | some entry => (entry.sequence, entry.saving)
    | none => (0, false)
  { c with
    saveDNSCache := update c.saveDNSCache k (some ⟨v, sequence + 1, true⟩)
    flushers := if saving then c.flushers else c.flushers ++ [(k, .reading)] }

/-- One step of the loop of `flushPendingDNSCacheWith`. -/
def flush (i : Nat) (k : SaveCacheKey) (fails : Bool) : Flusher β → Option (File β)
  | .reading =>
    let next := match c.saveDNSCache k with
      | some entry => .saving entry
      | none => .returned
    some { c with flushers := c.flushers.set i (k, next) }
  | .saving entry =>
    let c' := if fails then c else c.saveRow k entry.value
    some { c' with flushers := c.flushers.set i (k, .comparing entry) }
  | .comparing entry =>
    match c.saveDNSCache k with
    | none => some { c with flushers := c.flushers.set i (k, .returned) }
    | some currentEntry =>
      if currentEntry.sequence ≠ entry.sequence then some { c with flushers := c.flushers.set i (k, .reading) }
      else
        some { c with
          saveDNSCache := update c.saveDNSCache k none
          flushers := c.flushers.set i (k, .returned) }
  | .returned => none

def step : Label β → Option (File β)
  | .queue k v => some (c.queueDNSCacheSave k v)
  | .flush i fails =>
    match c.flushers[i]? with
    | some (k, f) => c.flush i k fails f
    | none => none
  | .clearPending => some { c with saveDNSCache := fun _ => none, clearing := c.clearing + 1 }
  | .clearDatabase =>
    if c.clearing = 0 then none else some { c with database := fun _ _ => none, clearing := c.clearing - 1 }

/-- A flusher of the key is running. -/
def flushing (k : SaveCacheKey) : Bool := c.flushers.any fun f => f.1 == k && f.2.running

end File

/-- The file from the start with the rows of an earlier run. -/
def machine (database : Database β) : System (File β) (Label β) where
  init c := c = .start database
  step c l := c.step l

/-- What the cache has to hold for a key: the value queued last, unless it was cleared behind that. -/
def expected (database : Database β) (k : SaveCacheKey) : List (File β × Label β) → Option (Value β)
  | [] => database k.transportName k.rowKey
  | (_, .queue k' v) :: past => if k' = k then some v.stored else expected database k past
  | (_, .clearPending) :: _ => none
  | (_, _) :: past => expected database k past

end SingBox.Cache
