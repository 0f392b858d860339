import SingBox.Lib.Transition

/-!
# Scopes and their cleanups

A scope holds the cleanups of a component and of the components under it. `Start` makes a child scope
for a component and lets it run without the lock; `Remove` runs the cleanup of one child; `Close` takes
all cleanups and runs them, the last one first. Here every call goes on step by step, and any
number of calls may be under way.
-/
namespace SingBox.Lifecycle

open Lib

variable {κ : Type}

/-- Cleanups are numbered in the order they are added. One that belongs to a child closes its scope. -/
structure Cleanup where
  id : Nat
  closes : Option Nat
  deriving DecidableEq

/-- `scopeChild`, under its component. -/
structure Child (κ : Type) where
  component : κ
  scope : Nat
  cleanup : Nat

/-- `Scope`; `closed` says that `Close` has called `cancel`. -/
structure Scope (κ : Type) where
  parent : Option Nat
  closed : Bool
  cleanups : List Cleanup
  children : List (Child κ)

/-- The cleanup that is run from a list. -/
inductive Current where
  | idle
  | leaf (id : Nat)
  | locking (id scope : Nat)
  | inside (id : Nat)
  deriving DecidableEq

/-- A list of cleanups that is being run: the place of the `Close` that took it, and what is left. -/
structure Frame where
  record : Option Nat
  current : Current
  rest : List Cleanup

/-- A call: `Start` while the component runs, or a `Close` or `Remove` with the lists it is in. -/
inductive Call where
  | starting (scope : Nat)
  | working (closes : Option Nat) (stack : List Frame)
  | ended (closes : Option Nat)

inductive Event where
  | began (id : Nat)
  | ended (id : Nat)
  deriving DecidableEq

/-- What a `Close` took from its scope, and the cleanup that called it. -/
structure Taken where
  caller : Option Nat
  cleanups : List Nat

/-- The scopes and calls, and the history of the cleanups. -/
structure State (κ : Type) where
  scopes : List (Scope κ)
  calls : List Call
  next : Nat
  log : List Event
  taken : List Taken

/-- The steps: the lock sections of the four methods, the return of a component, and the next step of a call. -/
inductive Label (κ : Type) where
  | start (scope : Nat) (component : κ)
  | add (scope : Nat)
  | finish (call : Nat)
  | remove (scope : Nat) (component : κ)
  | close (scope : Nat)
  | proceed (call : Nat)

namespace State

/-- `ctx.Err`: the scope or one that holds it is closed. -/
def done (s : State κ) : Nat → Nat → Bool
  | 0, _ => true
  | fuel + 1, i =>
    match s.scopes[i]? with
    | none => true
    | some scope => scope.closed || match scope.parent with
      | none => false
      | some parent => done s fuel parent

def start [DecidableEq κ] (s : State κ) (i : Nat) (component : κ) : Option (State κ) :=
  match s.scopes[i]? with
  | none => none
  | some scope =>
    if s.done s.scopes.length i then some { s with calls := s.calls ++ [.ended none] }
    else
      match scope.children.find? (·.component = component) with
      | some child => some { s with calls := s.calls ++ [.starting child.scope] }
      | none =>
        let child := s.scopes.length
        let scope := { scope with
          cleanups := scope.cleanups ++ [⟨s.next, some child⟩]
          children := ⟨component, child, s.next⟩ :: scope.children }
        some { s with
          scopes := s.scopes.set i scope ++ [⟨some i, false, [], []⟩]
          calls := s.calls ++ [.starting child]
          next := s.next + 1 }

/-- Somebody may add to the scope: the component that it belongs to, or the owner of the root. -/
def mayAdd (s : State κ) (i : Nat) : Bool :=
  i == 0 || s.calls.any fun
    | .starting scope => scope == i
    | _ => false

def add (s : State κ) (i : Nat) : Option (State κ) :=
  match s.scopes[i]? with
  | none => none
  | some scope =>
    if s.mayAdd i then
      some { s with
        scopes := s.scopes.set i { scope with cleanups := scope.cleanups ++ [⟨s.next, none⟩] }
        next := s.next + 1 }
    else none

def finish (s : State κ) (i : Nat) : Option (State κ) :=
  match s.calls[i]? with
  | some (.starting _) => some { s with calls := s.calls.set i (.ended none) }
  | _ => none

def remove [DecidableEq κ] (s : State κ) (i : Nat) (component : κ) : Option (State κ) :=
  match s.scopes[i]? with
  | none => none
  | some scope =>
    match scope.children.find? (·.component = component) with
    | none => some { s with calls := s.calls ++ [.ended none] }
    | some child =>
      let scope := { scope with
        cleanups := scope.cleanups.filter (·.id ≠ child.cleanup)
        children := scope.children.filter (·.component ≠ component) }
      some { s with
        scopes := s.scopes.set i scope
        calls := s.calls ++ [.working none [⟨none, .idle, [⟨child.cleanup, some child.scope⟩]⟩]] }

/-- The lock section of `Close`. -/
def lock (s : State κ) (i : Nat) (caller : Option Nat) : Option (State κ × Frame) :=
  match s.scopes[i]? with
  | none => none
  | some scope =>
    some ({ s with
        scopes := s.scopes.set i { scope with closed := true, cleanups := [], children := [] }
        taken := s.taken ++ [⟨caller, scope.cleanups.map (·.id)⟩] },
      ⟨some s.taken.length, .idle, scope.cleanups.reverse⟩)

def close (s : State κ) (i : Nat) : Option (State κ) :=
  match s.lock i none with
  | none => none
  | some (s, frame) => some { s with calls := s.calls ++ [.working (some i) [frame]] }

def setStack (s : State κ) (i : Nat) (closes : Option Nat) (stack : List Frame) : State κ :=
  { s with calls := s.calls.set i (.working closes stack) }

def record (s : State κ) (event : Event) : State κ := { s with log := s.log ++ [event] }

/-- The next step of a `Close` or `Remove`. -/
def proceed (s : State κ) (i : Nat) : Option (State κ) :=
  match s.calls[i]? with
  | some (.working closes (⟨k, .idle, cleanup :: rest⟩ :: below)) =>
    let current := match cleanup.closes with
      | none => .leaf cleanup.id
      | some scope => .locking cleanup.id scope
    some ((s.record (.began cleanup.id)).setStack i closes (⟨k, current, rest⟩ :: below))
  | some (.working closes (⟨k, .leaf id, rest⟩ :: below)) =>
    some ((s.record (.ended id)).setStack i closes (⟨k, .idle, rest⟩ :: below))
  | some (.working closes (⟨k, .locking id scope, rest⟩ :: below)) =>
    match s.lock scope (some id) with
    | none => none
    | some (s, frame) => some (s.setStack i closes (frame :: ⟨k, .inside id, rest⟩ :: below))
  | some (.working closes (⟨_, .idle, []⟩ :: ⟨k, .inside id, rest⟩ :: below)) =>
    some ((s.record (.ended id)).setStack i closes (⟨k, .idle, rest⟩ :: below))
  | some (.working closes [⟨_, .idle, []⟩]) => some { s with calls := s.calls.set i (.ended closes) }
  | _ => none

def step [DecidableEq κ] (s : State κ) : Label κ → Option (State κ)
  | .start i component => s.start i component
  | .add i => s.add i
  | .finish i => s.finish i
  | .remove i component => s.remove i component
  | .close i => s.close i
  | .proceed i => s.proceed i

def initial : State κ := ⟨[⟨none, false, [], []⟩], [], 0, [], []⟩

end State

variable (κ) in
def machine [DecidableEq κ] : System (State κ) (Label κ) := ⟨fun s => s = .initial, State.step⟩

end SingBox.Lifecycle
