import SingBox.Lib.Transition
import Mathlib.Logic.Function.Basic

/-!
# The query multiplexer

Exchanges that share connections: each registers under a query ID of 16 bits, and whoever takes the
pending query answers it. Every goroutine is a task that runs from lock to lock. The connection pool
is what may happen: an acquire returns any connection or an error, and a connection may be closed at
any time. Reuse probing is off.
-/
namespace SingBox.Transport

open Lib

inductive ContextError where
  | canceled
  | deadlineExceeded
  deriving DecidableEq

/-- Why the context of a connection ended: the `queryMultiplexerReadError` of `recvLoop`, or another error. -/
inductive Cause where
  | readError
  | other
  deriving DecidableEq

inductive Reply where
  | response (queryId : UInt16)
  | acquireError
  | noAvailableQueryId
  | writeError
  | contextError (err : ContextError)
  | connError (cause : Cause)
  deriving DecidableEq

/-- A call of `ExchangeAsync`: how its context ended, and what its callback was invoked with. -/
structure Exchange where
  ended : Option ContextError
  replies : List Reply

structure Conn where
  cause : Option Cause
  readEpoch : UInt64

/-- A function handed to `context.AfterFunc`. -/
inductive AfterFunc where
  | waiting
  | running
  | finished
  | stopped
  deriving DecidableEq

def AfterFunc.stop : AfterFunc → AfterFunc
  | .waiting => .stopped
  | f => f

/-- `pendingQuery`, with the ID it is registered under; `taken` once it is out of the map. -/
structure PendingQuery where
  exchange : Nat
  queryId : UInt16
  conn : Nat
  readEpoch : UInt64
  retry : Bool
  onContext : AfterFunc
  onConn : AfterFunc
  taken : Bool

def PendingQuery.stop (pending : PendingQuery) : PendingQuery :=
  { pending with onContext := pending.onContext.stop, onConn := pending.onConn.stop }

/-- A goroutine in front of its next step. -/
inductive Task where
  | acquire (exchange : Nat) (retryReadError firstAttempt : Bool)
  | register (exchange : Nat) (retryReadError firstAttempt : Bool) (conn : Nat) (created : Bool)
  | write (exchange : Nat) (retryReadError firstAttempt : Bool) (conn : Nat) (created : Bool) (queryId : UInt16)
  | stop (pending : Nat) (next : Task)
  | callback (exchange : Nat) (reply : Reply)
  | finished

structure Multiplexer where
  exchanges : List Exchange
  conns : List Conn
  queryId : UInt16
  queries : UInt16 → Option Nat
  pendings : List PendingQuery
  tasks : List Task

inductive Label where
  | exchange
  | endContext (exchange : Nat) (err : ContextError)
  | close (conn : Nat) (cause : Cause)
  | receive (conn : Nat) (message : Option UInt16)
  | acquire (task : Nat) (result : Option (Nat × Bool))
  | register (task : Nat)
  | write (task : Nat) (failed : Bool)
  | stop (task : Nat)
  | callback (task : Nat)
  | startContext (pending : Nat)
  | runContext (pending : Nat)
  | startConn (pending : Nat)
  | runConn (pending : Nat)

/-- A step of the code, and not of its surroundings. -/
def Label.internal : Label → Bool
  | .exchange | .endContext _ _ | .close _ _ | .receive _ _ => false
  | _ => true

/-- The loop of `register` over the IDs behind `queryId`, back to where it started. -/
def nextFree (queries : UInt16 → Option Nat) (start : UInt16) : Nat → UInt16 → Option UInt16
  | 0, _ => none
  | fuel + 1, queryId =>
    let queryId := queryId + 1
    if (queries queryId).isNone then some queryId
    else if queryId = start then none
    else nextFree queries start fuel queryId

namespace Multiplexer

variable (m : Multiplexer)

def spawn (task : Task) : Multiplexer :=
  { m with tasks := m.tasks ++ [task] }

def setTask (i : Nat) (task : Task) : Multiplexer :=
  { m with tasks := m.tasks.set i task }

/-- The context of a connection ends once. -/
def invalidate (conn : Nat) (cause : Cause) : Multiplexer :=
  { m with conns := m.conns.modify conn fun c => { c with cause := c.cause.or (some cause) } }

/-- `take` up to the end of its lock section. -/
def take (queryId : UInt16) : Option (Multiplexer × Nat × PendingQuery) :=
  match m.queries queryId with
  | none => none
  | some p =>
    match m.pendings[p]? with
    | none => none
    | some pending =>
      some ({ m with
        queries := Function.update m.queries queryId none
        pendings := m.pendings.set p { pending with taken := true } }, p, pending)

/-- A function that has run, and what it goes on with when it has taken a query. -/
def takeAndSpawn (queryId : UInt16) (next : Multiplexer → PendingQuery → Multiplexer × Task) : Multiplexer :=
  match m.take queryId with
  | none => m
  | some (m, p, pending) =>
    let (m, task) := next m pending
    m.spawn (.stop p task)

/-- `AcquireShared` returns. -/
def acquire (i : Nat) (result : Option (Nat × Bool)) : Option Multiplexer :=
  match m.tasks[i]? with
  | some (.acquire x retryReadError firstAttempt) =>
    match result with
    | none => some (m.setTask i (.callback x .acquireError))
    | some (conn, created) =>
      let next := m.setTask i (.register x retryReadError firstAttempt conn created)
      if conn < m.conns.length then some next
      else if conn = m.conns.length then some { next with conns := m.conns ++ [⟨none, 0⟩] }
      else none
  | _ => none

/-- `register`, and the answer when it finds no ID. -/
def register (retryReadError : Bool) (i : Nat) : Option Multiplexer :=
  match m.tasks[i]? with
  | some (.register x retry firstAttempt conn created) =>
    match nextFree m.queries m.queryId 65536 m.queryId with
    | none => some (m.setTask i (.callback x .noAvailableQueryId))
    | some queryId =>
      let pending : PendingQuery := {
        exchange := x
        queryId := queryId
        conn := conn
        readEpoch := ((m.conns[conn]?).map Conn.readEpoch).getD 0
        retry := retry && retryReadError && !created
        onContext := .waiting
        onConn := .waiting
        taken := false }
      some ({ m with
        queryId := queryId
        queries := Function.update m.queries queryId (some m.pendings.length)
        pendings := m.pendings ++ [pending] }.setTask i (.write x retry firstAttempt conn created queryId))
  | _ => none

/-- The write returns; a failed one takes whatever stands under the ID. -/
def write (i : Nat) (failed : Bool) : Option Multiplexer :=
  match m.tasks[i]? with
  | some (.write x retry firstAttempt conn created queryId) =>
    if !failed then some (m.setTask i .finished)
    else
      match m.take queryId with
      | none => some ((m.invalidate conn .other).setTask i .finished)
      | some (m, p, _) =>
        let next := if !created && firstAttempt then .acquire x retry false else .callback x .writeError
        some ((m.invalidate conn .other).setTask i (.stop p next))
  | _ => none

def stop (i : Nat) : Option Multiplexer :=
  match m.tasks[i]? with
  | some (.stop p next) =>
    some ({ m with pendings := m.pendings.modify p PendingQuery.stop }.setTask i next)
  | _ => none

def callback (i : Nat) : Option Multiplexer :=
  match m.tasks[i]? with
  | some (.callback x reply) =>
    some ({ m with exchanges := m.exchanges.modify x fun e => { e with replies := e.replies ++ [reply] } }.setTask i
      .finished)
  | _ => none

/-- How the context of an exchange ended. -/
def contextErr (x : Nat) : Option ContextError :=
  (m.exchanges[x]?).bind Exchange.ended

def connCause (conn : Nat) : Option Cause :=
  (m.conns[conn]?).bind Conn.cause

def startContext (p : Nat) : Option Multiplexer :=
  match m.pendings[p]? with
  | some pending =>
    if pending.onContext = .waiting ∧ (m.contextErr pending.exchange).isSome then
      some { m with pendings := m.pendings.set p { pending with onContext := .running } }
    else none
  | none => none

def completeContextDone (err : ContextError) (m : Multiplexer) (pending : PendingQuery) : Multiplexer × Task :=
  let stale := ((m.conns[pending.conn]?).map Conn.readEpoch).getD 0 == pending.readEpoch
  (if err == .deadlineExceeded && stale then m.invalidate pending.conn .other else m,
    .callback pending.exchange (.contextError err))

def runContext (p : Nat) : Option Multiplexer :=
  match m.pendings[p]? with
  | some pending =>
    if pending.onContext = .running then
      let done := { m with pendings := m.pendings.set p { pending with onContext := .finished } }
      let err := (m.contextErr pending.exchange).getD .canceled
      some (done.takeAndSpawn pending.queryId (completeContextDone err))
    else none
  | none => none

def startConn (p : Nat) : Option Multiplexer :=
  match m.pendings[p]? with
  | some pending =>
    if pending.onConn = .waiting ∧ (m.connCause pending.conn).isSome then
      some { m with pendings := m.pendings.set p { pending with onConn := .running } }
    else none
  | none => none

/-- `completeConnDone`; a query that may be retried is dispatched again. -/
def completeConnDone (cause : Cause) (m : Multiplexer) (pending : PendingQuery) : Multiplexer × Task :=
  (m, if pending.retry && cause == .readError then .acquire pending.exchange false true
    else .callback pending.exchange (.connError cause))

def runConn (p : Nat) : Option Multiplexer :=
  match m.pendings[p]? with
  | some pending =>
    if pending.onConn = .running then
      let done := { m with pendings := m.pendings.set p { pending with onConn := .finished } }
      let cause := (m.connCause pending.conn).getD .other
      some (done.takeAndSpawn pending.queryId (completeConnDone cause))
    else none
  | none => none

/-- A turn of `recvLoop`. -/
def receive (conn : Nat) (message : Option UInt16) : Multiplexer :=
  let read := { m with conns := m.conns.modify conn fun c => { c with readEpoch := c.readEpoch + 1 } }
  match message with
  | none => read
  | some queryId => read.takeAndSpawn queryId fun m pending => (m, .callback pending.exchange (.response queryId))

def step (retryReadError : Bool) : Label → Option Multiplexer
  | .exchange =>
    let asked : Multiplexer := { m with exchanges := m.exchanges ++ [⟨none, []⟩] }
    some (asked.spawn (.acquire m.exchanges.length true true))
  | .endContext x err =>
    some { m with exchanges := m.exchanges.modify x fun e => { e with ended := e.ended.or (some err) } }
  | .close conn cause => some (m.invalidate conn cause)
  | .receive conn message => some (m.receive conn message)
  | .acquire i result => m.acquire i result
  | .register i => m.register retryReadError i
  | .write i failed => m.write i failed
  | .stop i => m.stop i
  | .callback i => m.callback i
  | .startContext p => m.startContext p
  | .runContext p => m.runContext p
  | .startConn p => m.startConn p
  | .runConn p => m.runConn p

/-- `newQueryMultiplexer`. -/
def new : Multiplexer where
  exchanges := []
  conns := []
  queryId := 0
  queries _ := none
  pendings := []
  tasks := []

end Multiplexer

def machine (retryReadError : Bool) : System Multiplexer Label where
  init m := m = .new
  step m := m.step retryReadError

end SingBox.Transport
