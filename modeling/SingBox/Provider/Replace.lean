import SingBox.Outbounds.Indexes
import SingBox.Provider.Affected
import Mathlib.Data.List.Dedup

/-!
# Replacing the outbounds of a started provider

`replaceStartedOutbounds` creates the affected outbounds, starts them in the scope of the
manager through the stages the manager has reached, and swaps them in. What fails is left
out together with what depends on it. How each creation and each start ends is an input.
-/
namespace SingBox.Provider

open Lib

variable {δ ω : Type}

inductive StartStage where
  | stateInitialize
  | stateStart
  | statePostStart
  | stateStarted
  deriving DecidableEq

def listStartStages : List StartStage := [.stateInitialize, .stateStart, .statePostStart, .stateStarted]

def StartStage.index : StartStage → Nat
  | .stateInitialize => 0
  | .stateStart => 1
  | .statePostStart => 2
  | .stateStarted => 3

/-- The components that have been started in the scope of the manager. -/
structure Scope where
  children : List Outbounds.Outbound

/-- How `Scope.Start` ends: the scope has been closed, or the component ran its stage. -/
inductive Started where
  | closed (err : String)
  | ran (result : Except String Unit)

def Started.failed : Started → Bool
  | .closed _ => true
  | .ran (.error _) => true
  | .ran (.ok _) => false

/-- A component whose stage fails stays a child. -/
def Scope.start (scope : Scope) (component : Outbounds.Outbound) : Started → Scope
  | .closed _ => scope
  | .ran _ => if component ∈ scope.children then scope else { children := scope.children ++ [component] }

def Scope.remove (scope : Scope) (component : Outbounds.Outbound) : Scope :=
  { children := scope.children.filter fun child => child != component }

def removeOutboundsReverse (scope : Scope) (outbounds : List Outbounds.Outbound) : Scope :=
  outbounds.reverse.foldl Scope.remove scope

/-- What the outside decides: whether there is a registry, how creations end, which outbounds have a
lifecycle, and how their starts end. -/
structure Outcomes (δ ω : Type) where
  registry : Bool
  create : (prepared : PreparedOutbound δ ω) → Except String { o : Outbounds.Outbound // o.tag = prepared.tag }
  lifecycle : Outbounds.Outbound → Bool
  start : Outbounds.Outbound → StartStage → Started

/-- The first dependency that cannot be resolved, or the empty string. -/
def missingDependency (outbound : PreparedOutbound δ ω) (invalid : List String)
    (lookup : String → Option Outbounds.Outbound) : String :=
  (outbound.dependencies.find? fun dependency => dependency ∈ invalid || (lookup dependency).isNone).getD ""

/-- `stagedOutboundManager.Outbound`. -/
def stagedOutbound (manager : Outbounds.Manager) (candidates : List Outbounds.Outbound) (tag : String) :
    Option Outbounds.Outbound :=
  (candidates.reverse.find? fun candidate => candidate.tag == tag).or (manager.outbound tag)

/-- The candidates with what they were created from, and the tags left out so far. -/
structure Build (δ ω : Type) where
  candidates : List Outbounds.Outbound
  prepared : List (PreparedOutbound δ ω)
  invalid : List String

section
variable (outcomes : Outcomes δ ω) (manager : Outbounds.Manager)

/-- The body of the loop over `candidatesToBuild`. -/
def Build.next (b : Build δ ω) (prepared : PreparedOutbound δ ω) : Build δ ω :=
  if missingDependency prepared b.invalid (stagedOutbound manager b.candidates) ≠ "" then
    { b with invalid := prepared.tag :: b.invalid }
  else
    match outcomes.create prepared with
    | .error _ => { b with invalid := prepared.tag :: b.invalid }
    | .ok candidate =>
      { b with candidates := b.candidates ++ [candidate.val], prepared := b.prepared ++ [prepared] }

def build (candidatesToBuild : List (PreparedOutbound δ ω)) : Build δ ω :=
  candidatesToBuild.foldl (Build.next outcomes manager) { candidates := [], prepared := [], invalid := [] }

structure Starting where
  scope : Scope
  invalid : List String

/-- The body of the loop over the candidates in one stage. -/
def Starting.next (byTag : String → Option (PreparedOutbound δ ω)) (stage : StartStage) (s : Starting)
    (candidate : Outbounds.Outbound) : Starting :=
  let dependencies := ((byTag candidate.tag).map PreparedOutbound.dependencies).getD []
  if candidate.tag ∈ s.invalid then s
  else if dependencies.any fun dependency => dependency ∈ s.invalid then
    { s with invalid := candidate.tag :: s.invalid }
  else if !outcomes.lifecycle candidate then s
  else
    let started := outcomes.start candidate stage
    { scope := s.scope.start candidate started
      invalid := if started.failed then candidate.tag :: s.invalid else s.invalid }

/-- The stages up to that of the manager. -/
def startCandidates (managerStage : StartStage) (b : Build δ ω) (scope : Scope) : Starting :=
  (listStartStages.takeWhile fun stage => stage.index ≤ managerStage.index).foldl
    (fun s stage => b.candidates.foldl (Starting.next outcomes (preparedByTag b.prepared) stage) s)
    { scope := scope, invalid := b.invalid }

end

/-- `expectedOld`, a map. -/
def expectedOld (manager : Outbounds.Manager) (tags : List String) : List (String × Outbounds.Outbound) :=
  tags.dedup.filterMap fun tag => (manager.outbound tag).map fun current => (tag, current)

theorem expectedOld_nodup (manager : Outbounds.Manager) (tags : List String) :
    ((expectedOld manager tags).map Prod.fst).Nodup := by
  have hsub : ((expectedOld manager tags).map Prod.fst).Sublist tags.dedup := by
    unfold expectedOld
    induction tags.dedup with
    | nil => exact .slnil
    | cons tag l ih =>
      cases htag : manager.outbound tag with
      | none =>
        rw [List.filterMap_cons_none (by simp [htag])]
        exact ih.cons tag
      | some current =>
        rw [List.filterMap_cons_some (by simp [htag] : _ = some (tag, current))]
        exact ih.cons_cons tag
  exact hsub.nodup (List.nodup_dedup tags)

/-- What `replaceStartedOutbounds` leaves behind and returns: the replaced outbounds in the order they
are to be closed, and the applied ones. -/
structure Replaced (δ ω : Type) where
  manager : Outbounds.Manager
  scope : Scope
  result : Except String (List Outbounds.Outbound × List (PreparedOutbound δ ω))

section
variable (b : Build δ ω) (s : Starting)

def validCandidates : List Outbounds.Outbound := b.candidates.filter fun candidate => candidate.tag ∉ s.invalid

def invalidCandidates : List Outbounds.Outbound := b.candidates.filter fun candidate => candidate.tag ∈ s.invalid

def appliedOutbounds (newOutbounds : List (PreparedOutbound δ ω)) : List (PreparedOutbound δ ω) :=
  newOutbounds.filter fun outbound => outbound.tag ∉ s.invalid

/-- What `SwapBatch` is called with for the old outbounds with these tags. -/
def swappedBatch (manager : Outbounds.Manager) (oldTags : List String) : Outbounds.Batch where
  expectedOld := expectedOld manager oldTags
  candidates := validCandidates b s
  nodup := expectedOld_nodup manager oldTags

/-- The end of `replaceStartedOutbounds`, when the candidates have been started. -/
def applyCandidates (manager : Outbounds.Manager) (oldTags : List String)
    (oldOutbounds newOutbounds : List (PreparedOutbound δ ω)) : Replaced δ ω :=
  let scope := removeOutboundsReverse s.scope (invalidCandidates b s)
  if 0 < newOutbounds.length ∧ (appliedOutbounds s newOutbounds).length = 0 then
    ⟨manager, removeOutboundsReverse scope (validCandidates b s), .error "no usable provider outbounds"⟩
  else
    match manager.swapBatch (swappedBatch b s manager oldTags) with
    | (manager, .error err) => ⟨manager, removeOutboundsReverse scope (validCandidates b s), .error err⟩
    | (manager, .ok oldByTag) =>
      let oldToClose := oldOutbounds.reverse.filterMap fun outbound => oldByTag.lookup outbound.tag
      ⟨manager, scope, .ok (oldToClose, appliedOutbounds s newOutbounds)⟩

end

section
variable [DecidableEq δ] [DecidableEq ω]

def affectedOldTags (oldOutbounds newOutbounds : List (PreparedOutbound δ ω)) : List String :=
  (oldOutbounds.map PreparedOutbound.tag).filter fun tag => tag ∈ affectedOutbounds oldOutbounds newOutbounds

def candidatesToBuild (oldOutbounds newOutbounds : List (PreparedOutbound δ ω)) : List (PreparedOutbound δ ω) :=
  newOutbounds.filter fun outbound => outbound.tag ∈ affectedOutbounds oldOutbounds newOutbounds

def replaceStartedOutbounds (outcomes : Outcomes δ ω) (manager : Outbounds.Manager) (managerStage : StartStage)
    (scope : Scope) (oldOutbounds newOutbounds : List (PreparedOutbound δ ω)) : Replaced δ ω :=
  let oldTags := affectedOldTags oldOutbounds newOutbounds
  match oldTags.find? fun tag => (manager.outbound tag).isNone with
  | some tag => ⟨manager, scope, .error s!"provider outbound not found: {tag}"⟩
  | none =>
    let toBuild := candidatesToBuild oldOutbounds newOutbounds
    if (expectedOld manager oldTags).length + toBuild.length = 0 then ⟨manager, scope, .ok ([], newOutbounds)⟩
    else if !outcomes.registry then ⟨manager, scope, .error "missing outbound registry"⟩
    else
      let b := build outcomes manager toBuild
      let s := startCandidates outcomes managerStage b scope
      applyCandidates b s manager oldTags oldOutbounds newOutbounds

end

end SingBox.Provider
