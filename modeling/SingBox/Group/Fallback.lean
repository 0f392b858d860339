import SingBox.Lib.Transition
import SingBox.Lib.Fold

/-!
# The fallback group

The members of a `Fallback`, their health, the selection and the pin, together with the
coordinator its health checks go through. A step is what runs under one lock; a health check
spans many, and members may be replaced while it runs.
-/
namespace SingBox.Group

open Lib Function

/-- An outbound; `id` tells the instances behind a tag apart, and `memberTag` is what `MemberTag`
returns for it. -/
structure Instance where
  id : Nat
  tag : String
  memberTag : String
  outboundType : String
  network : List String
  deriving DecidableEq

structure Candidate where
  tag : String
  outbound : Instance
  group : Nat
  deriving DecidableEq

/-- `measured` is the instance that the last result was measured on; nothing reads it. -/
structure Health where
  outbound : Instance
  checked : Bool
  alive : Bool
  measured : Option Instance

/-- `fallbackGroup`, with the regular expressions as predicates. -/
structure GroupOptions where
  outboundTags : List String
  providerTags : List String
  exclude : Option (String → Bool)
  only : Option (String → Bool)
  excludeTypes : String → Bool

/-- What the managers hold when members are collected. No outbound has an empty tag. -/
structure Environment where
  outbound : String → Option Instance
  provider : String → List Instance
  outbound_ne_empty : ∀ tag o, outbound tag = some o → tag ≠ ""
  provider_ne_empty : ∀ tag, ∀ o ∈ provider tag, o.tag ≠ ""

structure Fallback where
  candidates : List Candidate
  health : String → Option Health
  selected : String
  fixed : String

def providerOutboundFilterTag (providerTag outboundTag : String) : String :=
  (outboundTag.dropPrefix? (providerTag ++ "/")).elim outboundTag fun rest => rest.toString

section
variable (env : Environment)

/-- The first loop of `rebuildCandidates` over one group, behind the candidates found so far. -/
def collectOutbounds (group : Nat) : List String → List Candidate → Except String (List Candidate)
  | [], candidates => .ok candidates
  | tag :: tags, candidates =>
    if tag ∈ candidates.map Candidate.tag then collectOutbounds group tags candidates
    else
      match env.outbound tag with
      | none => .error s!"fallback outbound not found: {tag}"
      | some detour => collectOutbounds group tags (candidates ++ [{ tag := tag, outbound := detour, group := group }])

/-- A member of a provider passes the filters of the group. -/
def GroupOptions.accepts (options : GroupOptions) (providerTag : String) (detour : Instance) : Bool :=
  let filterTag := providerOutboundFilterTag providerTag detour.tag
  !options.excludeTypes detour.outboundType && !(options.exclude.any fun matches_ => matches_ filterTag) &&
    options.only.all fun matches_ => matches_ filterTag

def collectProvider (options : GroupOptions) (group : Nat) (providerTag : String) (candidates : List Candidate) :
    List Candidate :=
  (env.provider providerTag).foldl (fun candidates detour =>
    if detour.tag ∈ candidates.map Candidate.tag || !options.accepts providerTag detour then candidates
    else candidates ++ [{ tag := detour.tag, outbound := detour, group := group }]) candidates

def collectGroups : List (GroupOptions × Nat) → List Candidate → Except String (List Candidate)
  | [], candidates => .ok candidates
  | (options, group) :: groups, candidates =>
    match collectOutbounds env group options.outboundTags candidates with
    | .error err => .error err
    | .ok candidates =>
      collectGroups groups (options.providerTags.foldl (fun candidates providerTag =>
        collectProvider env options group providerTag candidates) candidates)

end

namespace Fallback

variable (f : Fallback)

/-- `usableLocked`. -/
def usable (candidate : Candidate) : Bool :=
  match f.health candidate.tag with
  | none => true
  | some state => !state.checked || state.alive

/-- The two loops at the end of `selectAvailableLocked`. -/
def firstAvailable : String :=
  (((f.candidates.find? f.usable).or f.candidates.head?).map Candidate.tag).getD ""

/-- `selectAvailableLocked`, which may release the pin, and the assignment of its result. -/
def selectAvailable : Fallback :=
  match if f.fixed ≠ "" then f.candidates.find? fun candidate => candidate.tag == f.fixed else none with
  | some candidate =>
    if f.usable candidate then { f with selected := candidate.tag }
    else if f.candidates.any f.usable then { f with fixed := "", selected := f.firstAvailable }
    else { f with selected := f.firstAvailable }
  | none => { f with selected := f.firstAvailable }

/-- The health of a member: kept when the instance is the same. -/
def carriedHealth (candidate : Candidate) : Health :=
  match f.health candidate.tag with
  | some state => if state.outbound = candidate.outbound then state else ⟨candidate.outbound, false, false, none⟩
  | none => ⟨candidate.outbound, false, false, none⟩

/-- `rebuildCandidates`; a member that is not found leaves everything as it was. -/
def rebuildCandidates (groups : List GroupOptions) (env : Environment) : Fallback :=
  match collectGroups env groups.zipIdx [] with
  | .error _ => f
  | .ok candidates =>
    let health := candidates.foldl (fun health (candidate : Candidate) =>
      update health candidate.tag (some (f.carriedHealth candidate))) fun _ => none
    { f with candidates := candidates, health := health }.selectAvailable

/-- The locked part of `SelectOutbound`. -/
def selectOutbound (tag : String) : Fallback × Bool :=
  if tag ≠ "" ∧ !(f.candidates.any fun candidate => candidate.tag == tag) then (f, false)
  else if f.fixed = tag then (f, true)
  else ({ f with fixed := tag }.selectAvailable, true)

def candidatesForNetwork (network : String) : List Candidate :=
  let able := f.candidates.filter fun candidate => network ∈ candidate.outbound.network
  let pinned := able.filter fun candidate => f.usable candidate && f.fixed != "" && candidate.tag == f.fixed
  let usable := able.filter fun candidate => f.usable candidate && !(f.fixed != "" && candidate.tag == f.fixed)
  pinned ++ usable ++ (able.find? fun candidate => !f.usable candidate).toList

/-- A result for one member, in the loop of `checkCandidates`; a failure behind the deadline of the
caller is cut off. -/
def recordResult (canceled : Bool) (result : Candidate × Bool × Option Instance) : Fallback :=
  let (candidate, failed, measured) := result
  if failed && canceled then f
  else
    match f.health candidate.tag with
    | none => f
    | some state =>
      if state.outbound ≠ candidate.outbound then f
      else
        let state := { state with checked := true, alive := !failed, measured := measured }
        { f with health := update f.health candidate.tag (some state) }

end Fallback

/-- `coordinatorCheck`: a test of an instance, with its verdict when it is done. -/
structure Test where
  outbound : Instance
  failed : Option Bool
  abandoned : Bool

/-- Where `Coordinator.Check` stands for one member: not begun, waiting for a test of its own or of
another caller, or returned with a verdict and the instance it was measured on. -/
inductive Probe where
  | idle
  | running (test : Nat)
  | joined (test : Nat)
  | done (failed : Bool) (measured : Option Instance)

/-- A call of `checkCandidates`. -/
structure Call where
  members : List (Candidate × Probe)
  maxAge : Bool
  canceled : Bool
  returned : Bool

/-- What `Check` returned. -/
def Probe.result : Probe → Option (Bool × Option Instance)
  | .done failed measured => some (failed, measured)
  | _ => none

def Call.results (c : Call) : List (Candidate × Bool × Option Instance) :=
  c.members.filterMap fun entry => entry.2.result.map (entry.1, ·)

/-- `checks` maps the key of a question to the test that was last asked to answer it; link, status and
timeout are those of the group. -/
structure State where
  fallback : Fallback
  tests : List Test
  checks : String → Option Nat
  calls : List Call

inductive Label where
  | rebuild (env : Environment)
  | select (tag : String)
  | begin (members : List Candidate) (maxAge : Bool)
  | cancel (call : Nat)
  | probe (call member : Nat) (fresh : Bool)
  | foreign (outbound : Instance)
  | finish (test : Nat) (failed abandoned : Bool)
  | forget (test : Nat)
  | collect (call member : Nat)
  | giveUp (call member : Nat)
  | apply (call : Nat)

namespace State

variable (s : State)

def setProbe (call member : Nat) (probe : Probe) : State :=
  { s with calls := s.calls.modify call fun c =>
      { c with members := c.members.modify member fun entry => (entry.1, probe) } }

/-- A new test becomes the one that answers for the member tag. -/
def startTest (outbound : Instance) : State :=
  { s with
    tests := s.tests ++ [{ outbound := outbound, failed := none, abandoned := false }]
    checks := update s.checks outbound.memberTag (some s.tests.length) }

/-- The test that `Check` would share: one that is running, or one that is recent enough. -/
def shared (key : String) (maxAge fresh : Bool) : Option (Nat × Test) :=
  match s.checks key with
  | none => none
  | some t =>
    match s.tests[t]? with
    | none => none
    | some test =>
      if test.failed.isNone || (maxAge && !test.abandoned && fresh) then some (t, test) else none

/-- `Check` up to the point where it waits or returns. -/
def probe (call member : Nat) (fresh : Bool) : Option State :=
  match s.calls[call]? with
  | none => none
  | some c =>
    match c.members[member]? with
    | some (candidate, .idle) =>
      if c.canceled then some (s.setProbe call member (.done true none))
      else
        match s.shared candidate.outbound.memberTag c.maxAge fresh with
        | none => some ((s.startTest candidate.outbound).setProbe call member (.running s.tests.length))
        | some (t, test) =>
          match test.failed with
          | none => some (s.setProbe call member (.joined t))
          | some failed => some (s.setProbe call member (.done failed (some test.outbound)))
    | _ => none

/-- Another group asks about an outbound; while a test is running it waits for that one. -/
def foreign (outbound : Instance) : Option State :=
  match s.shared outbound.memberTag false false with
  | some _ => none
  | none => some (s.startTest outbound)

def finish (t : Nat) (failed abandoned : Bool) : Option State :=
  match s.tests[t]? with
  | some test =>
    if test.failed = none then
      some { s with tests := s.tests.set t { test with failed := some failed, abandoned := abandoned } }
    else none
  | none => none

/-- An abandoned test is removed by its caller, an old one by `pruneLocked`. -/
def forget (t : Nat) : Option State :=
  match s.tests[t]? with
  | some test =>
    if test.failed.isSome && s.checks test.outbound.memberTag == some t then
      some { s with checks := update s.checks test.outbound.memberTag none }
    else none
  | none => none

/-- A test that `Check` waits for is done; one that was abandoned is no answer for another caller. -/
def collect (call member : Nat) : Option State :=
  match (s.calls[call]?).bind fun c => c.members[member]? with
  | some (_, .running t) =>
    match s.tests[t]? with
    | some ⟨outbound, some failed, _⟩ => some (s.setProbe call member (.done failed (some outbound)))
    | _ => none
  | some (_, .joined t) =>
    match s.tests[t]? with
    | some ⟨outbound, some failed, abandoned⟩ =>
      if abandoned then some (s.setProbe call member .idle)
      else some (s.setProbe call member (.done failed (some outbound)))
    | _ => none
  | _ => none

/-- A caller that waits for the test of another is cut off. -/
def giveUp (call member : Nat) : Option State :=
  match s.calls[call]? with
  | none => none
  | some c =>
    match c.members[member]? with
    | some (_, .joined _) => if c.canceled then some (s.setProbe call member (.done true none)) else none
    | _ => none

/-- The locked part of `checkCandidates`, when every member has a result. -/
def apply (call : Nat) : Option State :=
  match s.calls[call]? with
  | none => none
  | some c =>
    if c.returned || c.members.any fun entry => entry.2.result.isNone then none
    else
      let f := c.results.foldl (fun f result => f.recordResult c.canceled result) s.fallback
      some { s with fallback := f.selectAvailable, calls := s.calls.set call { c with returned := true } }

def step (groups : List GroupOptions) : Label → Option State
  | .rebuild env => some { s with fallback := s.fallback.rebuildCandidates groups env }
  | .select tag => some { s with fallback := (s.fallback.selectOutbound tag).1 }
  | .begin members maxAge =>
    if members ⊆ s.fallback.candidates then
      some { s with calls := s.calls ++ [⟨members.map fun candidate => (candidate, .idle), maxAge, false, false⟩] }
    else none
  | .cancel call => some { s with calls := s.calls.modify call fun c => { c with canceled := true } }
  | .probe call member fresh => s.probe call member fresh
  | .foreign outbound => s.foreign outbound
  | .finish t failed abandoned => s.finish t failed abandoned
  | .forget t => s.forget t
  | .collect call member => s.collect call member
  | .giveUp call member => s.giveUp call member
  | .apply call => s.apply call

end State

/-- The group starts with the pin of the cache file and without members. -/
def machine (groups : List GroupOptions) : System State Label where
  init s := s.fallback.candidates = [] ∧ (∀ tag, s.fallback.health tag = none) ∧ s.fallback.selected = "" ∧
    s.tests = [] ∧ (∀ key, s.checks key = none) ∧ s.calls = []
  step s := s.step groups

end SingBox.Group
