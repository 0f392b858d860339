import SingBox.Lib.Fold
import SingBox.Lib.Transition
import Mathlib.Data.List.Perm.Basic

/-!
# The outbound manager

`Create`, `Remove` and `SwapBatch`: the list of outbounds, the index by tag, the reverse
index of dependencies and the default outbound, each updated by hand. An operation that
is refused returns the manager as it was when it was refused.
-/
namespace SingBox.Outbounds

open Function

/-- An outbound, or an endpoint taken as one; `id` tells objects apart. -/
structure Outbound where
  id : Nat
  tag : String
  dependencies : List String
  deriving DecidableEq

structure Manager where
  defaultTag : String
  endpoint : String → Option Outbound
  outbounds : List Outbound
  outboundByTag : String → Option Outbound
  dependByTag : String → List String
  defaultOutbound : Option Outbound

/-- What `SwapBatch` is called with; `expectedOld` is a map. -/
structure Batch where
  expectedOld : List (String × Outbound)
  candidates : List Outbound
  nodup : (expectedOld.map Prod.fst).Nodup

namespace Batch

variable (b : Batch)

/-- `removeSet`. -/
def removes (tag : String) : Bool := b.expectedOld.any fun old => old.1 == tag

def candidateByTag (tag : String) : Option Outbound := b.candidates.find? fun candidate => candidate.tag == tag

end Batch

/-- The tag is taken out of the lists of the dependencies. -/
def withoutDependent (dependByTag : String → List String) (tag : String) (dependencies : List String) :
    String → List String :=
  dependencies.foldl (fun depend dependency =>
    update depend dependency ((depend dependency).filter fun it => it != tag)) dependByTag

/-- The tag is put into the lists of the dependencies. -/
def withDependent (dependByTag : String → List String) (tag : String) (dependencies : List String) :
    String → List String :=
  dependencies.foldl (fun depend dependency =>
    update depend dependency (depend dependency ++ [tag])) dependByTag

/-- The loop of `SwapBatch` over the current outbounds: a candidate takes the place of the outbound
it replaces. The candidates that are left come back too. -/
def place (removes : String → Bool) : List Outbound → List Outbound → List Outbound × List Outbound
  | [], remaining => ([], remaining)
  | current :: outbounds, remaining =>
    if !removes current.tag then
      let (updated, remaining) := place removes outbounds remaining
      (current :: updated, remaining)
    else
      match remaining.find? fun candidate => candidate.tag == current.tag with
      | some candidate =>
        let (updated, remaining) := place removes outbounds (remaining.filter fun c => c.tag != current.tag)
        (candidate :: updated, remaining)
      | none => place removes outbounds remaining

namespace Manager

variable (m : Manager)

def new (defaultTag : String) (endpoint : String → Option Outbound) : Manager where
  defaultTag := defaultTag
  endpoint := endpoint
  outbounds := []
  outboundByTag := fun _ => none
  dependByTag := fun _ => []
  defaultOutbound := none

def outbound (tag : String) : Option Outbound := (m.outboundByTag tag).or (m.endpoint tag)

def removeDependencies (outbound : Outbound) : Manager :=
  { m with dependByTag := withoutDependent m.dependByTag outbound.tag outbound.dependencies }

/-- `Start` of the first stage: without a default outbound the endpoint with the default tag is
taken, and without a default tag a fallback that depends on nothing is added. -/
def startInitialize (fallback : Except String { o : Outbound // o.dependencies = [] }) : Manager × Except String Unit :=
  match m.defaultOutbound with
  | some _ => (m, .ok ())
  | none =>
    if m.defaultTag ≠ "" then
      match m.endpoint m.defaultTag with
      | none =>
        let tag := m.defaultTag
        (m, .error s!"default outbound not found: {tag}")
      | some defaultEndpoint => ({ m with defaultOutbound := some defaultEndpoint }, .ok ())
    else
      match fallback with
      | .error err => (m, .error err)
      | .ok direct =>
        ({ m with
          outbounds := m.outbounds ++ [direct.val]
          outboundByTag := update m.outboundByTag direct.val.tag (some direct.val)
          defaultOutbound := some direct.val }, .ok ())

/-- `Create` behind the creation and the start of the outbound. -/
def insert (outbound : Outbound) : Manager :=
  let tag := outbound.tag
  let existing := m.outboundByTag tag
  let m' := match existing with
    | some existsOutbound =>
      { m with outbounds := m.outbounds.filter fun it => it != existsOutbound }.removeDependencies existsOutbound
    | none => m
  { m with
    outbounds := m'.outbounds ++ [outbound]
    outboundByTag := update m.outboundByTag tag (some outbound)
    dependByTag := withDependent m'.dependByTag tag outbound.dependencies
    defaultOutbound :=
      if tag = m.defaultTag ∨ m.defaultTag = "" ∧ m.defaultOutbound = none ∨
          existing.isSome ∧ m.defaultOutbound = existing then some outbound
      else m.defaultOutbound }

/-- `Create`: the registry gives an outbound with the tag or fails, and so does its start; `closed`
is what closing the outbound it replaces returns. -/
def create (tag : String) (created : Except String { o : Outbound // o.tag = tag })
    (started closed : Except String Unit) : Manager × Except String Unit :=
  if tag = "" then (m, .error "invalid argument")
  else
    match created with
    | .error err => (m, .error err)
    | .ok outbound =>
      match started with
      | .error err => (m, .error err)
      | .ok () => (m.insert outbound, if (m.outboundByTag tag).isSome then closed else .ok ())

/-- `Remove`; `closed` is what closing the outbound returns, behind every update. -/
def remove (tag : String) (closed : Except String Unit) : Manager × Except String Unit :=
  match m.outboundByTag tag with
  | none => (m, .error "invalid argument")
  | some outbound =>
    if m.dependByTag tag ≠ [] then
      let dependBy := String.intercalate ", " (m.dependByTag tag)
      (m, .error s!"outbound[{tag}] is depended by {dependBy}")
    else
      let m' := { m with
        outboundByTag := update m.outboundByTag tag none
        outbounds := m.outbounds.filter fun it => it != outbound }.removeDependencies outbound
      ({ m' with
        defaultOutbound := if m'.defaultOutbound = some outbound then m'.outbounds.head? else m'.defaultOutbound },
        closed)

/-- The first loop over the candidates, behind those of `seen`. -/
def checkCandidates (removes : String → Bool) (seen : List String) : List Outbound → Except String Unit
  | [] => .ok ()
  | candidate :: candidates =>
    let tag := candidate.tag
    if tag = "" ∨ tag ∈ seen then .error s!"invalid duplicate outbound candidate: {tag}"
    else if (m.outboundByTag tag).isSome && !removes tag then .error s!"outbound already exists: {tag}"
    else checkCandidates removes (tag :: seen) candidates

/-- A dependency of a candidate is there behind the swap. -/
def provides (b : Batch) (dependency : String) : Bool :=
  (b.candidateByTag dependency).isSome || (m.outboundByTag dependency).isSome && !b.removes dependency ||
    (m.endpoint dependency).isSome

/-- The updates of `SwapBatch`. -/
def swap (b : Batch) : Manager :=
  let dependByTag := b.expectedOld.foldl (fun depend old =>
    withoutDependent depend old.1 (((m.outboundByTag old.1).map Outbound.dependencies).getD [])) m.dependByTag
  let outboundByTag := fun tag => if b.removes tag then none else m.outboundByTag tag
  let (updated, remaining) := place b.removes m.outbounds b.candidates
  let outbounds := updated ++ remaining
  let replaced := match m.defaultOutbound with
    | some current => if b.removes current.tag then b.candidateByTag current.tag else some current
    | none => none
  let chosen := (b.candidateByTag m.defaultTag).or replaced
  { m with
    outbounds := outbounds
    outboundByTag := b.candidates.foldl (fun byTag candidate => update byTag candidate.tag (some candidate))
      outboundByTag
    dependByTag := b.candidates.foldl (fun depend candidate =>
      withDependent depend candidate.tag candidate.dependencies) dependByTag
    defaultOutbound := chosen.or outbounds.head? }

/-- `SwapBatch`: the old outbounds, by tag. -/
def swapBatch (b : Batch) : Manager × Except String (List (String × Outbound)) :=
  match b.expectedOld.find? fun old => m.outboundByTag old.1 != some old.2 with
  | some (tag, _) => (m, .error s!"outbound changed before batch swap: {tag}")
  | none =>
    match m.checkCandidates b.removes [] b.candidates with
    | .error err => (m, .error err)
    | .ok () =>
      match (b.expectedOld.flatMap fun old => (m.dependByTag old.1).map (old.1, ·)).find? fun d => !b.removes d.2 with
      | some (tag, dependent) => (m, .error s!"outbound[{tag}] is depended by {dependent}")
      | none =>
        match (b.candidates.flatMap Outbound.dependencies).find? fun d => !m.provides b d with
        | some dependency => (m, .error s!"outbound dependency not found: {dependency}")
        | none => (m.swap b, .ok b.expectedOld)

end Manager

inductive Label where
  | startInitialize (fallback : Except String { o : Outbound // o.dependencies = [] })
  | create (tag : String) (created : Except String { o : Outbound // o.tag = tag })
    (started closed : Except String Unit)
  | remove (tag : String) (closed : Except String Unit)
  | swapBatch (batch : Batch)

def Manager.step (m : Manager) : Label → Manager
  | .startInitialize fallback => (m.startInitialize fallback).1
  | .create tag created started closed => (m.create tag created started closed).1
  | .remove tag closed => (m.remove tag closed).1
  | .swapBatch batch => (m.swapBatch batch).1

/-- A manager with fixed endpoints. -/
def machine (defaultTag : String) (endpoint : String → Option Outbound) : Lib.System Manager Label where
  init m := m = .new defaultTag endpoint
  step m l := some (m.step l)

end SingBox.Outbounds
