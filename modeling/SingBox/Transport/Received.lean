import SingBox.Transport.Answered

/-!
# The connection a response came from

A response is matched to a pending query by its ID alone. The IDs are shared by all connections, so the query
under an ID is the last one that was registered under it, wherever that was sent.
-/
namespace SingBox.Transport

open Lib Function List

namespace Multiplexer

variable {m m' : Multiplexer}

/-- The ID and the connection of every query that was ever registered. -/
def sent (m : Multiplexer) : List (UInt16 × Nat) := m.pendings.map fun pending => (pending.queryId, pending.conn)

/-- The connection of the last query that was registered under the ID. -/
def sentOn (m : Multiplexer) (queryId : UInt16) : Option Nat :=
  ((m.sent.filter (·.1 == queryId)).getLast?).map Prod.snd

/-- The pending query that `recvLoop` completes with a message of this ID. -/
def completes (m : Multiplexer) (queryId : UInt16) : Option PendingQuery := (m.take queryId).map fun taken => taken.2.2

/-- Under an ID stands the last query that was registered under it. -/
def Latest (m : Multiplexer) : Prop :=
  ∀ queryId p, m.queries queryId = some p → ∃ conn, m.sent[p]? = some (queryId, conn) ∧ m.sentOn queryId = some conn

variable {p : Nat} {pending : PendingQuery} {queryId : UInt16}

theorem sent_set {pending' : PendingQuery} (hp : m.pendings[p]? = some pending)
    (hid : pending'.queryId = pending.queryId) (hconn : pending'.conn = pending.conn) :
    ({ m with pendings := m.pendings.set p pending' } : Multiplexer).sent = m.sent := by
  refine ext_getElem? fun q => ?_
  simp only [sent, getElem?_map, getElem?_set_pending hp]
  split
  next heq =>
    subst heq
    simp [hp, hid, hconn]
  · rfl

theorem Latest.of_sent (h : m.Latest) (hsent : m'.sent = m.sent)
    (hqueries : ∀ queryId p, m'.queries queryId = some p → m.queries queryId = some p) : m'.Latest := by
  intro queryId p hp
  rw [sentOn, hsent]
  exact h queryId p (hqueries queryId p hp)

theorem Latest.take (h : m.Latest) (hp : m.pendings[p]? = some pending) : ({ m with
      queries := update m.queries queryId none
      pendings := m.pendings.set p { pending with taken := true } } : Multiplexer).Latest := by
  refine h.of_sent (sent_set (m := m) hp rfl rfl) fun id q hq => ?_
  dsimp only at hq
  by_cases hid : id = queryId
  · subst hid
    rw [update_self] at hq
    cases hq
  · rwa [update_of_ne hid] at hq

theorem Latest.takeAndSpawn (h : m.Latest) {next : Multiplexer → PendingQuery → Multiplexer × Task}
    (hn : Answers next) : (m.takeAndSpawn queryId next).Latest := by
  rcases takeAndSpawn_cases hn with ⟨_, heq⟩ | ⟨p, pending, conns, task, _, hp, _, _, heq⟩ <;> rw [heq]
  · exact h
  · exact h.take hp

/-- The new query is the last one under its ID, and of no other. -/
theorem Latest.register (h : m.Latest) (pending : PendingQuery) (queryId : UInt16) :
    ({ m with
      queryId := queryId
      queries := update m.queries pending.queryId (some m.pendings.length)
      pendings := m.pendings ++ [pending] } : Multiplexer).Latest := by
  intro id p hp
  simp only [sentOn, sent, map_append, map_singleton, filter_append] at hp ⊢
  by_cases hid : id = pending.queryId
  · subst hid
    rw [update_self] at hp
    cases hp
    exact ⟨pending.conn, by simp, by simp⟩
  · rw [update_of_ne hid] at hp
    obtain ⟨conn, hsent, hon⟩ := h id p hp
    have hne : ¬pending.queryId = id := fun heq => hid heq.symm
    refine ⟨conn, ?_, by simpa [hne, sentOn, sent] using hon⟩
    rw [sent] at hsent
    rw [getElem?_append_left (lt_of_getElem? hsent)]
    exact hsent

theorem Latest.move (h : m.Latest) {l : Label} (hm : m.Move l m') : m'.Latest := by
  cases hm with
  | respond conn queryId conns =>
    have hconns : ({ m with conns := conns } : Multiplexer).Latest := h
    exact hconns.takeAndSpawn (answers_response queryId)
  | register l i x retry firstAttempt created pending => exact h.register pending pending.queryId
  | writeTook i x retry firstAttempt created conn queryId m₁ p pending next _ ht =>
    obtain ⟨_, hp, rfl⟩ := take_eq_some ht
    exact h.take hp
  | stop l i p next =>
    refine h.of_sent ?_ fun _ _ hq => hq
    show (m.pendings.modify p PendingQuery.stop).map _ = m.pendings.map _
    refine ext_getElem? fun q => ?_
    simp only [getElem?_map, getElem?_modify]
    cases m.pendings[q]? with
    | none => rfl
    | some pending => by_cases hq : p = q <;> simp [hq, PendingQuery.stop]
  | start l p pending pending' hp hsame => exact h.of_sent (sent_set hp hsame.queryId hsame.conn) fun _ _ hq => hq
  | run l p pending pending' next hp hsame hn =>
    have hset : ({ m with pendings := m.pendings.set p pending' } : Multiplexer).Latest :=
      h.of_sent (sent_set hp hsame.queryId hsame.conn) fun _ _ hq => hq
    exact hset.takeAndSpawn hn
  | _ => exact h

end Multiplexer

section
variable {retryReadError : Bool} {past : List (Multiplexer × Label)} {m : Multiplexer}

theorem latest_run (hrun : (machine retryReadError).Run past m) : m.Latest := by
  refine hrun.always (I := Multiplexer.Latest) ?_ fun m m' l h hs => h.move (Multiplexer.step_move hs)
  rintro m rfl queryId p hp
  cases hp

/-- In every run: the query that a message completes was sent on the connection the message came from exactly
if nothing is pending under its ID, or the last query registered under the ID was sent on that connection. -/
theorem received_own_iff (hrun : (machine retryReadError).Run past m) (conn : Nat) (queryId : UInt16) :
    (∀ pending, m.completes queryId = some pending → pending.conn = conn) ↔
      ((m.queries queryId).isSome → m.sentOn queryId = some conn) := by
  have hr := registered_run hrun
  cases hq : m.queries queryId with
  | none => simp [Multiplexer.completes, Multiplexer.take, hq]
  | some p =>
    obtain ⟨pending, hp, _⟩ := (hr.indexed queryId p).mp hq
    obtain ⟨conn', hsent, hon⟩ := latest_run hrun queryId p hq
    have hcompletes : m.completes queryId = some pending := by
      simp [Multiplexer.completes, Multiplexer.take, hq, hp]
    have hconn : pending.conn = conn' := by
      simp only [Multiplexer.sent, getElem?_map, hp, Option.map_some, Option.some.injEq, Prod.mk.injEq] at hsent
      exact hsent.2
    simp [hcompletes, hon, hconn]

end

def twoConnections : List Label :=
  [.exchange, .acquire 0 (some (0, true)), .register 0, .write 0 false, .close 0 .other, .exchange,
    .acquire 1 (some (1, true)), .register 1, .write 1 false]

theorem received_own_second : ∃ past m, (machine false).Run past m ∧ (m.completes 2).isSome ∧
    m.sentOn 2 = some 1 ∧ ∀ pending, m.completes 2 = some pending → pending.conn = 1 := by
  obtain ⟨m, hm, hpending, hon⟩ : ∃ m, (machine false).exec twoConnections .new = some m ∧ (m.completes 2).isSome ∧
      m.sentOn 2 = some 1 := ⟨_, rfl, rfl, rfl⟩
  have hrun := System.run_exec (.start _ rfl : (machine false).Run [] .new) hm
  exact ⟨_, m, hrun, hpending, hon, (received_own_iff hrun 1 2).mpr fun _ => hon⟩

/-- The first connection was closed, and a message that was still read from it completes the query on the second. -/
theorem old_connection_completes : ∃ past m pending, (machine false).Run past m ∧ m.connCause 0 = some .other ∧
    m.completes 2 = some pending ∧ pending.conn = 1 ∧
      ∃ m', m.step false (.receive 0 (some 2)) = some m' ∧
        m'.tasks[2]? = some (.stop 1 (.callback 1 (.response 2))) := by
  obtain ⟨m, hm, hcause, pending, hpending, hconn, hreceive⟩ : ∃ m, (machine false).exec twoConnections .new = some m ∧
      m.connCause 0 = some .other ∧ ∃ pending, m.completes 2 = some pending ∧ pending.conn = 1 ∧
        ∃ m', m.step false (.receive 0 (some 2)) = some m' ∧
          m'.tasks[2]? = some (.stop 1 (.callback 1 (.response 2))) :=
    ⟨_, rfl, rfl, _, rfl, rfl, _, rfl, rfl⟩
  exact ⟨_, m, pending, System.run_exec (.start _ rfl : (machine false).Run [] .new) hm, hcause, hpending, hconn,
    hreceive⟩

end SingBox.Transport
