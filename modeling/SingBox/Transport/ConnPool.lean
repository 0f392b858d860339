import SingBox.Lib.Transition

/-!
# The shared connection pool

`ConnPool` in single mode: callers of `AcquireShared`, the goroutines that dial for them, and the
states that `Reset` leaves behind while both are still running. A step is one lock section, with the
calls of `options.Close` behind it, which touch nothing of the pool.
-/
namespace SingBox.ConnPool

open Lib

/-- `connPoolState`: the connection is there when `shared` is. -/
structure PoolState where
  canceled : Bool
  all : List Nat
  shared : Option Nat
  sharedClaimed : Bool
  sharedUsers : Int
  sharedWaiters : Int
  connecting : Option Nat

/-- `newConnPoolState`. -/
def PoolState.new : PoolState := ⟨false, [], none, false, 0, 0, none⟩

/-- A dial for a state, and whether it failed once it is done. -/
structure Connect where
  state : Nat
  failed : Option Bool

/-- A caller of `AcquireShared`. -/
inductive Caller where
  | acquiring
  | waiting (state connect : Nat) (startDial : Bool)
  | acquired (conn : Nat) (created : Bool)
  | released (conn : Nat) (created : Bool)
  | failed
  deriving DecidableEq

/-- How a dial ends: with an error, with a connection after its context ended, or with a connection. -/
inductive Dialed where
  | error
  | late
  | conn

/-- `states` holds every state there was, the one at `current` being that of the pool until it is closed;
`conns` says of each connection that a dial returned whether it was closed. -/
structure Pool where
  closed : Bool
  current : Nat
  states : List PoolState
  connects : List Connect
  callers : List Caller
  conns : List Bool

inductive Label where
  | call
  | acquire (caller : Nat)
  | dialed (connect : Nat) (result : Dialed)
  | collect (caller : Nat)
  | cancel (caller : Nat)
  | wake (caller : Nat)
  | release (caller : Nat) (reuse : Bool)
  | invalidate (conn : Nat)
  | closeIdle
  | reset
  | close

namespace Pool

variable (p : Pool)

def setState (i : Nat) (st : PoolState) : Pool := { p with states := p.states.set i st }

def setCaller (c : Nat) (caller : Caller) : Pool := { p with callers := p.callers.set c caller }

def closeConn (conn : Nat) : Pool := { p with conns := p.conns.set conn true }

/-- `removeConn`, and the `Close` behind the lock. -/
def removeConn (i : Nat) (st : PoolState) (conn : Nat) : Pool :=
  let st := { st with all := st.all.filter fun other => other != conn }
  let st := if st.shared = some conn then { st with shared := none, sharedClaimed := false, sharedUsers := 0 } else st
  (p.setState i st).closeConn conn

/-- A caller gets the connection of the state. -/
def claim (i : Nat) (st : PoolState) (c conn : Nat) : Pool :=
  (p.setState i { st with sharedClaimed := true, sharedUsers := st.sharedUsers + 1 }).setCaller c
    (.acquired conn !st.sharedClaimed)

/-- A caller begins to wait for a dial. -/
def wait (i : Nat) (st : PoolState) (c connect : Nat) (startDial : Bool) : Pool :=
  (p.setState i { st with sharedWaiters := st.sharedWaiters + 1 }).setCaller c (.waiting i connect startDial)

/-- A caller no longer waits. -/
def leave (i : Nat) (st : PoolState) (c : Nat) (next : Caller) : Pool :=
  (p.setState i { st with sharedWaiters := st.sharedWaiters - 1 }).setCaller c next

/-- A caller is in front of the connection of the state. -/
def useShared (isAlive : Nat → Bool) (i : Nat) (st : PoolState) (c conn : Nat) : Pool :=
  if isAlive conn then p.claim i st c conn else p.removeConn i st conn

/-- The goroutine of `connectSingle` is started. -/
def startDial (i : Nat) (st : PoolState) : Pool :=
  { p.setState i { st with connecting := some p.connects.length } with
    connects := p.connects ++ [{ state := i, failed := none }] }

/-- The first lock section of `acquireShared`. -/
def acquire (isAlive : Nat → Bool) (c : Nat) : Option Pool :=
  match p.callers[c]?, p.states[p.current]? with
  | some .acquiring, some st =>
    if p.closed then some (p.setCaller c .failed)
    else
      match st.shared with
      | some conn => some (p.useShared isAlive p.current st c conn)
      | none =>
        match st.connecting with
        | some k => some (p.wait p.current st c k false)
        | none =>
          let k := p.connects.length
          some ((p.startDial p.current st).wait p.current { st with connecting := some k } c k true)
  | _, _ => none

/-- `connectSingle` from the end of the dial on. -/
def dialed (k : Nat) (result : Dialed) : Option Pool :=
  match p.connects[k]? with
  | some ⟨i, none⟩ =>
    match p.states[i]? with
    | none => none
    | some st =>
      let done (failed : Bool) (st : PoolState) (conns : List Bool) : Pool :=
        { p.setState i { st with connecting := none } with
          connects := p.connects.set k ⟨i, some failed⟩
          conns := conns }
      match result with
      | .error => some (done true st p.conns)
      | .late => some (done true st (p.conns ++ [true]))
      | .conn =>
        if p.closed || p.current != i then some (done true st (p.conns ++ [true]))
        else
          let conn := p.conns.length
          some (done false { st with shared := some conn, all := conn :: st.all } (p.conns ++ [false]))
  | _ => none

/-- `collectShared`. -/
def collect (isAlive : Nat → Bool) (c : Nat) : Option Pool :=
  match p.callers[c]? with
  | some (.waiting i k startDial) =>
    match p.states[i]?, (p.connects[k]?).bind Connect.failed with
    | some st, some failed =>
      if failed then some (p.leave i st c (if startDial then .failed else .acquiring))
      else if p.closed || p.current != i then some (p.leave i st c .failed)
      else
        let left := p.leave i st c .acquiring
        match st.shared with
        | none => some left
        | some conn => some (left.useShared isAlive i { st with sharedWaiters := st.sharedWaiters - 1 } c conn)
    | _, _ => none
  | _ => none

/-- The context of a waiting caller ends. -/
def cancel (c : Nat) : Option Pool :=
  match p.callers[c]? with
  | some (.waiting i _ _) =>
    match p.states[i]? with
    | some st => some (p.leave i st c .failed)
    | none => none
  | _ => none

/-- The state that a caller waits in was replaced. -/
def wake (c : Nat) : Option Pool :=
  match p.callers[c]? with
  | some (.waiting i _ _) =>
    match p.states[i]? with
    | some st => if st.canceled then some (p.leave i st c (if p.closed then .failed else .acquiring)) else none
    | none => none
  | _ => none

/-- `Release`, by a caller that has the connection. -/
def release (isAlive : Nat → Bool) (c : Nat) (reuse : Bool) : Option Pool :=
  match p.callers[c]?, p.states[p.current]? with
  | some (.acquired conn created), some st =>
    let gone := p.setCaller c (.released conn created)
    if p.closed then some (gone.closeConn conn)
    else if conn ∉ st.all then some (gone.closeConn conn)
    else if !reuse || !isAlive conn then some (gone.removeConn p.current st conn)
    else if st.shared = some conn ∧ 0 < st.sharedUsers then
      some (gone.setState p.current { st with sharedUsers := st.sharedUsers - 1 })
    else some gone
  | _, _ => none

def invalidate (conn : Nat) : Option Pool :=
  match p.states[p.current]? with
  | some st =>
    if p.closed then some (p.closeConn conn)
    else if conn ∉ st.all then some p
    else some (p.removeConn p.current st conn)
  | none => none

def closeIdle : Option Pool :=
  match p.states[p.current]? with
  | some st =>
    if p.closed then some p
    else
      match st.shared with
      | none => some p
      | some conn =>
        if 0 < st.sharedUsers ∨ 0 < st.sharedWaiters then some p else some (p.removeConn p.current st conn)
  | none => none

def closeState (i : Nat) (st : PoolState) : Pool :=
  st.all.foldl (fun p conn => p.closeConn conn) (p.setState i { st with canceled := true })

def reset : Option Pool :=
  match p.states[p.current]? with
  | some st =>
    if p.closed then some p
    else
      let closed := p.closeState p.current st
      some { closed with states := closed.states ++ [.new], current := p.states.length }
  | none => none

def close : Option Pool :=
  match p.states[p.current]? with
  | some st => if p.closed then some p else some { p.closeState p.current st with closed := true }
  | none => none

def step (isAlive : Nat → Bool) : Label → Option Pool
  | .call => some { p with callers := p.callers ++ [.acquiring] }
  | .acquire c => p.acquire isAlive c
  | .dialed k result => p.dialed k result
  | .collect c => p.collect isAlive c
  | .cancel c => p.cancel c
  | .wake c => p.wake c
  | .release c reuse => p.release isAlive c reuse
  | .invalidate conn => p.invalidate conn
  | .closeIdle => p.closeIdle
  | .reset => p.reset
  | .close => p.close

/-- `NewConnPool`. -/
def new : Pool where
  closed := false
  current := 0
  states := [.new]
  connects := []
  callers := []
  conns := []

end Pool

def machine (isAlive : Nat → Bool) : System Pool Label where
  init p := p = .new
  step p := p.step isAlive

end SingBox.ConnPool
