import SingBox.Transport.Multiplexer
import SingBox.Lib.Count

/-!
# Every query is answered once

The right to invoke a callback is one token: it is with the goroutine of the exchange until the query
is registered, then with the pending query, and then with whoever took it. A failed write is the one
place that answers for its own exchange whatever it took; as long as what it takes is its own, tokens
are neither lost nor doubled.
-/
namespace SingBox.Transport

open Lib List Function Option Bool Multiplexer PendingQuery

/-- The task will invoke the callback of the exchange. -/
def Task.holds (x : Nat) : Task → Bool
  | .acquire y _ _ | .register y _ _ _ _ | .callback y _ => y == x
  | .stop _ next => next.holds x
  | .write _ _ _ _ _ _ | .finished => false

def PendingQuery.holds (x : Nat) (pending : PendingQuery) : Bool := !pending.taken && pending.exchange == x

/-- The pending query is the same but for its functions. -/
structure PendingQuery.Same (pending pending' : PendingQuery) : Prop where
  exchange : pending'.exchange = pending.exchange
  queryId : pending'.queryId = pending.queryId
  conn : pending'.conn = pending.conn
  taken : pending'.taken = pending.taken

/-- The function has not run and is not stopped. -/
def AfterFunc.Live (f : AfterFunc) : Prop := f = .waiting ∨ f = .running

theorem nextFree_free {queries : UInt16 → Option Nat} {start : UInt16} {fuel : Nat} {queryId free : UInt16}
    (h : nextFree queries start fuel queryId = some free) : queries free = none := by
  induction fuel generalizing queryId with
  | zero => cases h
  | succ fuel ih =>
    unfold nextFree at h
    dsimp only at h
    split at h
    next hnone =>
      cases h
      exact isNone_iff_eq_none.mp hnone
    · split at h
      · cases h
      · exact ih h

/-- Both functions of the query are there to take it. -/
def PendingQuery.Armed (pending : PendingQuery) : Prop := pending.onContext.Live ∧ pending.onConn.Live

section
variable (exchanges : List Exchange) (queries : UInt16 → Option Nat) (pendings : List PendingQuery) (tasks : List Task)

/-- How many times the callback of an exchange has been or will be invoked. -/
def account (x : Nat) : Nat :=
  tasks.countP (Task.holds x) + pendings.countP (holds x) +
    ((exchanges[x]?).map fun e => e.replies.length).getD 0

def Accounted : Prop := ∀ x, account exchanges pendings tasks x = if x < exchanges.length then 1 else 0

/-- The map holds exactly the pending queries that nobody has taken. -/
def Indexed : Prop :=
  ∀ queryId p, queries queryId = some p ↔
    ∃ pending, pendings[p]? = some pending ∧ pending.taken = false ∧ pending.queryId = queryId

def Taken (p : Nat) : Prop := ∃ pending, pendings[p]? = some pending ∧ pending.taken = true

/-- Only functions of queries that were taken are stopped. -/
def StopsTaken : Task → Prop
  | .stop p next => Taken pendings p ∧ StopsTaken next
  | _ => True

structure Registered : Prop where
  indexed : Indexed queries pendings
  armed : ∀ pending ∈ pendings, pending.taken = false → pending.Armed
  stops : ∀ task ∈ tasks, StopsTaken pendings task

end

section
variable {exchanges : List Exchange} {queries : UInt16 → Option Nat} {pendings pendings' : List PendingQuery}
  {tasks : List Task} {queryId : UInt16} {p q i : Nat} {pending pending' : PendingQuery} {task : Task}

theorem StopsTaken.mono (hp : ∀ p, Taken pendings p → Taken pendings' p) (h : StopsTaken pendings task) :
    StopsTaken pendings' task := by
  induction task with
  | stop p next ih => exact ⟨hp p h.1, ih h.2⟩
  | _ => trivial

theorem Registered.setTask (h : Registered queries pendings tasks) (ht : StopsTaken pendings task) :
    Registered queries pendings (tasks.set i task) :=
  ⟨h.indexed, h.armed, forall_mem_set h.stops ht⟩

theorem Registered.spawn (h : Registered queries pendings tasks) (ht : StopsTaken pendings task) :
    Registered queries pendings (tasks ++ [task]) :=
  ⟨h.indexed, h.armed, forall_mem_snoc h.stops ht⟩

theorem Indexed.taken_false (h : Indexed queries pendings) (hq : queries queryId = some p)
    (hp : pendings[p]? = some pending) : pending.taken = false ∧ pending.queryId = queryId := by
  obtain ⟨pending', hp', htaken, hid⟩ := (h queryId p).mp hq
  cases hp.symm.trans hp'
  exact ⟨htaken, hid⟩

section
variable (hp : pendings[p]? = some pending)
include hp

theorem getElem?_set_pending (q : Nat) :
    (pendings.set p pending')[q]? = if p = q then some pending' else pendings[q]? := by
  rw [List.getElem?_set, if_pos (lt_of_getElem? hp)]

theorem Indexed.setPending (h : Indexed queries pendings) (hid : pending'.queryId = pending.queryId)
    (ht : pending'.taken = pending.taken) : Indexed queries (pendings.set p pending') := by
  intro queryId q
  rw [h]
  simp only [getElem?_set_pending hp]
  split
  next heq =>
    subst heq
    simp [hp, hid, ht]
  · exact Iff.rfl

theorem Taken.setPending (ht : pending.taken = true → pending'.taken = true) (h : Taken pendings q) :
    Taken (pendings.set p pending') q := by
  obtain ⟨pending₀, hq, htaken⟩ := h
  simp only [Taken, getElem?_set_pending hp]
  split
  next heq =>
    subst heq
    cases hp.symm.trans hq
    exact ⟨pending', rfl, ht htaken⟩
  · exact ⟨pending₀, hq, htaken⟩

theorem account_setPending (hsame : pending.Same pending') (x : Nat) :
    account exchanges (pendings.set p pending') tasks x = account exchanges pendings tasks x := by
  have hholds : pending'.holds x = pending.holds x := by
    rw [holds, hsame.exchange, hsame.taken, holds]
  simp only [account, countP_set_eq hp hholds]

theorem Registered.setPending (h : Registered queries pendings tasks) (hid : pending'.queryId = pending.queryId)
    (ht : pending'.taken = pending.taken) (hlive : pending.taken = false → pending.Armed → pending'.Armed) :
    Registered queries (pendings.set p pending') tasks := by
  refine ⟨h.indexed.setPending hp hid ht, forall_mem_set h.armed fun htaken => ?_, fun task htask => ?_⟩
  · rw [ht] at htaken
    exact hlive htaken (h.armed pending (mem_of_getElem? hp) htaken)
  · exact (h.stops task htask).mono fun q => Taken.setPending hp fun hold => ht.trans hold

/-! What `take` leaves. -/

section
variable (h : Indexed queries pendings) (hq : queries queryId = some p)
include h hq

theorem Indexed.take : Indexed (update queries queryId none) (pendings.set p { pending with taken := true }) := by
  intro id q
  simp only [getElem?_set_pending hp]
  by_cases hid : id = queryId
  · subst hid
    rw [update_self]
    refine ⟨nofun, ?_⟩
    rintro ⟨pending', hq', htaken, hid'⟩
    split at hq'
    · cases hq'
      cases htaken
    next hne => exact absurd (some.inj (hq.symm.trans ((h id q).mpr ⟨pending', hq', htaken, hid'⟩))) hne
  · rw [update_of_ne hid, h]
    split
    next heq =>
      subst heq
      constructor
      · rintro ⟨pending', hp', _, hid'⟩
        cases hp.symm.trans hp'
        exact absurd (hid'.symm.trans (h.taken_false hq hp).2) hid
      · rintro ⟨pending', hp', htaken, _⟩
        cases hp'
        cases htaken
    · exact Iff.rfl

/-- Behind a `take` the queries under other IDs are left, and what goes on may stop the functions. -/
theorem registered_take
    (harmed : ∀ pending ∈ pendings, pending.taken = false → pending.queryId ≠ queryId → pending.Armed)
    (hstops : ∀ task ∈ tasks, StopsTaken pendings task) :
    Registered (update queries queryId none) (pendings.set p { pending with taken := true }) tasks ∧
      Taken (pendings.set p { pending with taken := true }) p := by
  refine ⟨⟨h.take hp hq, fun pending' hmem htaken => ?_, fun task htask => ?_⟩, { pending with taken := true }, ?_, rfl⟩
  · obtain ⟨q, hq'⟩ := mem_iff_getElem?.mp hmem
    rcases of_getElem?_set hq' with ⟨_, rfl⟩ | ⟨hne, hq'⟩
    · cases htaken
    · refine harmed pending' (mem_of_getElem? hq') htaken fun hid => hne ?_
      exact some.inj (hq.symm.trans ((h queryId q).mpr ⟨pending', hq', htaken, hid⟩))
  · exact (hstops task htask).mono fun _ => Taken.setPending hp fun _ => rfl
  · rw [getElem?_set_pending hp, if_pos rfl]

theorem account_take (exchanges : List Exchange) (tasks : List Task) (x : Nat) :
    account exchanges (pendings.set p { pending with taken := true }) tasks x +
      (if pending.exchange = x then 1 else 0) =
      account exchanges pendings tasks x := by
  have hcount := countP_set_add (p := holds x) hp { pending with taken := true }
  have hbefore : pending.holds x = (pending.exchange == x) := by
    rw [holds, (h.taken_false hq hp).1]
    rfl
  have hafter : holds x { pending with taken := true } = false := rfl
  rw [hbefore, hafter] at hcount
  simp only [beq_iff_eq, false_eq_true, if_false] at hcount
  simp only [account]
  omega

end

end

theorem account_spawn (x : Nat) : account exchanges pendings (tasks ++ [task]) x =
    account exchanges pendings tasks x + if task.holds x then 1 else 0 := by
  simp only [account, countP_append, countP_singleton]
  omega

theorem account_setTask (exchanges : List Exchange) (pendings : List PendingQuery) (h : tasks[i]? = some task)
    (task' : Task) (x : Nat) : account exchanges pendings (tasks.set i task') x + (if task.holds x then 1 else 0) =
      account exchanges pendings tasks x + if task'.holds x then 1 else 0 := by
  have hcount := countP_set_add (p := Task.holds x) h task'
  simp only [account]
  omega

theorem Registered.add (h : Registered queries pendings tasks) (hnone : queries pending.queryId = none)
    (htaken : pending.taken = false) (harmed : pending.Armed) :
    Registered (update queries pending.queryId (some pendings.length)) (pendings ++ [pending]) tasks := by
  refine ⟨fun id q => ?_, forall_mem_snoc h.armed fun _ => harmed, fun task htask => ?_⟩
  · simp only [List.getElem?_append, List.getElem?_singleton]
    by_cases hid : id = pending.queryId
    · subst hid
      rw [update_self, some.injEq]
      constructor
      · rintro rfl
        simp [htaken]
      rintro ⟨pending', hq, htaken', hid⟩
      split at hq
      · have hmapped := (h.indexed pending.queryId q).mpr ⟨pending', hq, htaken', hid⟩
        rw [hnone] at hmapped
        cases hmapped
      · split at hq
        · omega
        · cases hq
    · rw [update_of_ne hid, h.indexed]
      refine exists_congr fun pending' => and_congr_left fun hpending => ?_
      split
      · exact Iff.rfl
      next hlen =>
        rw [List.getElem?_eq_none (by omega)]
        constructor
        · intro hno
          cases hno
        · intro hq
          split at hq
          · cases hq
            exact absurd hpending.2.symm hid
          · cases hq
  · refine (h.stops task htask).mono fun q hq => ?_
    obtain ⟨pending', hpending, htaken'⟩ := hq
    refine ⟨pending', ?_, htaken'⟩
    rw [List.getElem?_append_left (lt_of_getElem? hpending)]
    exact hpending

end

namespace Multiplexer

variable {m m' : Multiplexer} {queryId : UInt16} {p i : Nat} {pending : PendingQuery}
  {next : Multiplexer → PendingQuery → Multiplexer × Task}

/-- What `take` finds under an ID, and what it leaves. -/
theorem take_eq_some (h : m.take queryId = some (m', p, pending)) :
    m.queries queryId = some p ∧ m.pendings[p]? = some pending ∧ m' = { m with
      queries := update m.queries queryId none
      pendings := m.pendings.set p { pending with taken := true } } := by
  unfold take at h
  split at h
  · cases h
  next hq =>
    split at h
    · cases h
    next hp =>
      cases h
      exact ⟨hq, hp, rfl⟩

/-- What goes on behind a `take` answers for the query that was taken. -/
structure Answers (next : Multiplexer → PendingQuery → Multiplexer × Task) : Prop where
  frame : ∀ m pending, ∃ conns, (next m pending).1 = { m with conns := conns }
  stops : ∀ m pending pendings, StopsTaken pendings (next m pending).2
  holds : ∀ m pending x, (next m pending).2.holds x = (pending.exchange == x)

theorem answers_completeContextDone (err : ContextError) : Answers (completeContextDone err) := by
  refine ⟨fun m pending => ?_, fun _ _ _ => trivial, fun _ _ _ => rfl⟩
  unfold completeContextDone
  dsimp only
  split
  · exact ⟨_, rfl⟩
  · exact ⟨m.conns, rfl⟩

theorem answers_completeConnDone (cause : Cause) : Answers (completeConnDone cause) := by
  refine ⟨fun m pending => ⟨m.conns, rfl⟩, fun m pending pendings => ?_, fun m pending x => ?_⟩
  · unfold completeConnDone
    dsimp only
    split <;> trivial
  · unfold completeConnDone
    dsimp only
    split <;> rfl

theorem answers_response (queryId : UInt16) :
    Answers fun m pending => (m, .callback pending.exchange (.response queryId)) :=
  ⟨fun m _ => ⟨m.conns, rfl⟩, fun _ _ _ => trivial, fun _ _ _ => rfl⟩

/-- A function that finds nothing leaves everything, and one that takes a query answers for it. -/
theorem takeAndSpawn_cases (hn : Answers next) : m.take queryId = none ∧ m.takeAndSpawn queryId next = m ∨
      ∃ p pending conns task, m.queries queryId = some p ∧ m.pendings[p]? = some pending ∧
        (∀ x, task.holds x = (pending.exchange == x)) ∧ (∀ pendings, StopsTaken pendings task) ∧
        m.takeAndSpawn queryId next = { m with
          conns := conns
          queries := update m.queries queryId none
          pendings := m.pendings.set p { pending with taken := true }
          tasks := m.tasks ++ [.stop p task] } := by
  unfold takeAndSpawn
  split
  next ht => exact .inl ⟨ht, rfl⟩
  next m' p pending ht =>
    obtain ⟨hq, hp, hm'⟩ := take_eq_some ht
    obtain ⟨conns, hconns⟩ := hn.frame m' pending
    refine .inr ⟨p, pending, conns, _, hq, hp, hn.holds m' pending, hn.stops m' pending, ?_⟩
    simp only [spawn, hconns]
    rw [hm']

/-- A write that fails finds under its ID a query of its own exchange, or none. -/
def writesOwn (m : Multiplexer) : Label → Bool
  | .write i true =>
    match m.tasks[i]? with
    | some (.write x _ _ _ _ queryId) => (m.take queryId).all fun taken => taken.2.2.exchange == x
    | _ => true
  | _ => true

inductive Move (m : Multiplexer) : Label → Multiplexer → Prop
  | exchange : Move m .exchange
      (({ m with exchanges := m.exchanges ++ [⟨none, []⟩] } : Multiplexer).spawn
        (.acquire m.exchanges.length true true))
  | endContext (x : Nat) (err : ContextError) : Move m (.endContext x err)
      { m with exchanges := m.exchanges.modify x fun e => { e with ended := e.ended.or (some err) } }
  | conns (l : Label) (conns : List Conn) : Move m l { m with conns := conns }
  | respond (conn : Nat) (queryId : UInt16) (conns : List Conn) : Move m (.receive conn (some queryId))
      (({ m with conns := conns } : Multiplexer).takeAndSpawn queryId
        fun m pending => (m, .callback pending.exchange (.response queryId)))
  | goOn (l : Label) (i : Nat) (task task' : Task) (conns : List Conn) : m.tasks[i]? = some task →
      (∀ x, task'.holds x = task.holds x) → (∀ pendings, StopsTaken pendings task') →
      Move m l (({ m with conns := conns } : Multiplexer).setTask i task')
  | register (l : Label) (i x : Nat) (retry firstAttempt created : Bool) (pending : PendingQuery) :
      m.tasks[i]? = some (.register x retry firstAttempt pending.conn created) → m.queries pending.queryId = none →
      pending.exchange = x → pending.taken = false → pending.Armed →
      Move m l (({ m with
        queryId := pending.queryId
        queries := update m.queries pending.queryId (some m.pendings.length)
        pendings := m.pendings ++ [pending] } : Multiplexer).setTask i
          (.write x retry firstAttempt pending.conn created pending.queryId))
  | writeTook (i x : Nat) (retry firstAttempt created : Bool) (conn : Nat) (queryId : UInt16) (m₁ : Multiplexer)
    (p : Nat)
      (pending : PendingQuery) (next : Task) : m.tasks[i]? = some (.write x retry firstAttempt conn created queryId) →
      m.take queryId = some (m₁, p, pending) → (∀ y, next.holds y = (x == y)) → (∀ pendings, StopsTaken pendings next) →
      Move m (.write i true) ((m₁.invalidate conn .other).setTask i (.stop p next))
  | stop (l : Label) (i p : Nat) (next : Task) : m.tasks[i]? = some (.stop p next) →
      Move m l (({ m with pendings := m.pendings.modify p PendingQuery.stop } : Multiplexer).setTask i next)
  | callback (l : Label) (i x : Nat) (reply : Reply) : m.tasks[i]? = some (.callback x reply) →
      Move m l (({ m with exchanges := m.exchanges.modify x fun e => { e with replies := e.replies ++ [reply] } } :
        Multiplexer).setTask i .finished)
  | start (l : Label) (p : Nat) (pending pending' : PendingQuery) : m.pendings[p]? = some pending →
      pending.Same pending' → (pending.Armed → pending'.Armed) →
      Move m l { m with pendings := m.pendings.set p pending' }
  | run (l : Label) (p : Nat) (pending pending' : PendingQuery)
    (next : Multiplexer → PendingQuery → Multiplexer × Task) :
      m.pendings[p]? = some pending → pending.Same pending' → Answers next →
      Move m l (({ m with pendings := m.pendings.set p pending' } : Multiplexer).takeAndSpawn pending.queryId next)

theorem acquire_move {result : Option (Nat × Bool)} (hs : m.acquire i result = some m') :
    m.Move (.acquire i result) m' := by
  unfold acquire at hs
  split at hs
  next x retry firstAttempt hi =>
    split at hs
    · cases hs
      exact .goOn _ i _ _ m.conns hi (fun _ => rfl) fun _ => trivial
    next conn created =>
      dsimp only at hs
      split_ifs at hs
      · cases hs
        exact .goOn _ i _ _ m.conns hi (fun _ => rfl) fun _ => trivial
      · cases hs
        exact .goOn _ i _ (.register x retry firstAttempt conn created) (m.conns ++ [⟨none, 0⟩]) hi (fun _ => rfl)
          fun _ => trivial
  · cases hs

variable {retryReadError : Bool} {l : Label}

theorem register_move (hs : m.register retryReadError i = some m') : m.Move (.register i) m' := by
  unfold register at hs
  split at hs
  next x retry firstAttempt conn created hi =>
    split at hs
    · cases hs
      exact .goOn _ i _ _ m.conns hi (fun _ => rfl) fun _ => trivial
    next queryId hfree =>
      cases hs
      exact .register _ i x retry firstAttempt created ⟨x, queryId, conn, _, _, .waiting, .waiting, false⟩ hi
        (nextFree_free hfree) rfl rfl ⟨.inl rfl, .inl rfl⟩
  · cases hs

theorem write_move {failed : Bool} (hs : m.write i failed = some m') : m.Move (.write i failed) m' := by
  unfold write at hs
  split at hs
  next x retry firstAttempt conn created queryId hi =>
    split at hs
    · cases hs
      exact .goOn _ i _ _ m.conns hi (fun _ => rfl) fun _ => trivial
    next hfailed =>
      rw [not_eq_true', not_eq_false] at hfailed
      subst hfailed
      split at hs
      · cases hs
        exact .goOn _ i _ _ _ hi (fun _ => rfl) fun _ => trivial
      next m₁ p pending ht =>
        cases hs
        refine .writeTook i x retry firstAttempt created conn queryId m₁ p pending _ hi ht (fun y => ?_) fun _ => ?_
        · split <;> rfl
        · split <;> trivial
  · cases hs

theorem step_move (hs : m.step retryReadError l = some m') : m.Move l m' := by
  cases l with
  | exchange => cases hs; exact .exchange
  | endContext x err => cases hs; exact .endContext x err
  | close conn cause => cases hs; exact .conns _ _
  | receive conn message =>
    cases hs
    cases message with
    | none => exact .conns _ _
    | some queryId => exact .respond conn queryId _
  | acquire i result => exact acquire_move hs
  | register i => exact register_move hs
  | write i failed => exact write_move hs
  | stop i =>
    simp only [step, stop] at hs
    split at hs
    next p next hi => cases hs; exact .stop _ i p next hi
    · cases hs
  | callback i =>
    simp only [step, callback] at hs
    split at hs
    next x reply hi => cases hs; exact .callback _ i x reply hi
    · cases hs
  | startContext p | startConn p =>
    simp only [step, startContext, startConn] at hs
    split at hs
    next pending hp =>
      split_ifs at hs
      cases hs
      refine .start _ p pending _ hp ⟨rfl, rfl, rfl, rfl⟩ fun hlive => ?_
      first | exact ⟨.inr rfl, hlive.2⟩ | exact ⟨hlive.1, .inr rfl⟩
    · cases hs
  | runContext p | runConn p =>
    simp only [step, runContext, runConn] at hs
    split at hs
    next pending hp =>
      split_ifs at hs
      cases hs
      refine .run _ p pending _ _ hp ⟨rfl, rfl, rfl, rfl⟩ ?_
      first | exact answers_completeContextDone _ | exact answers_completeConnDone _
    · cases hs

/-- A function that has run takes the query under its ID, its own if that is still there. -/
theorem registered_takeAndSpawn (hn : Answers next) (h : Indexed m.queries m.pendings)
    (harmed : ∀ pending ∈ m.pendings, pending.taken = false → pending.queryId ≠ queryId → pending.Armed)
    (hstops : ∀ task ∈ m.tasks, StopsTaken m.pendings task) (hs : m.takeAndSpawn queryId next = m') :
    Registered m'.queries m'.pendings m'.tasks := by
  rcases takeAndSpawn_cases hn with ⟨ht, heq⟩ | ⟨p, pending, conns, task, hq, hp, _, htask, heq⟩ <;> rw [← hs, heq]
  · refine ⟨h, fun pending hmem htaken => harmed pending hmem htaken fun hid => ?_, hstops⟩
    obtain ⟨p, hp⟩ := mem_iff_getElem?.mp hmem
    have hq := (h queryId p).mpr ⟨pending, hp, htaken, hid⟩
    simp [take, hq, hp] at ht
  · obtain ⟨htook, htaken⟩ := registered_take hp h hq harmed hstops
    exact htook.spawn ⟨htaken, htask _⟩

theorem registered_move (h : Registered m.queries m.pendings m.tasks) (hm : m.Move l m') :
    Registered m'.queries m'.pendings m'.tasks := by
  cases hm with
  | exchange => exact h.spawn trivial
  | endContext | conns => exact h
  | respond conn queryId conns =>
    exact registered_takeAndSpawn (m := { m with conns }) (answers_response queryId) h.indexed
      (fun pending hmem htaken _ => h.armed pending hmem htaken) h.stops rfl
  | goOn l i task task' conns _ _ hstops => exact h.setTask (hstops _)
  | register l i x retry firstAttempt created pending _ hnone _ htaken hlive =>
    exact (h.add hnone htaken hlive).setTask trivial
  | writeTook i x retry firstAttempt created conn queryId m₁ p pending next _ ht _ hstops =>
    obtain ⟨hq, hp, rfl⟩ := take_eq_some ht
    obtain ⟨htook, htaken⟩ := registered_take hp h.indexed hq (fun pending hmem htaken _ => h.armed pending hmem htaken)
      h.stops
    exact htook.setTask ⟨htaken, hstops _⟩
  | stop l i p next htask =>
    obtain ⟨⟨pending, hp, htaken⟩, hnext⟩ := h.stops _ (mem_of_getElem? htask)
    rw [modify_eq_set_getElem?, hp]
    refine Registered.setTask (h.setPending hp (by rfl) (by rfl) fun hfalse => ?_) ?_
    · rw [htaken] at hfalse
      cases hfalse
    · exact hnext.mono fun q hq => Taken.setPending hp (fun _ => htaken) hq
  | callback => exact h.setTask trivial
  | start l p pending pending' hp hsame hlive => exact h.setPending hp hsame.queryId hsame.taken fun _ => hlive
  | run l p pending pending' next hp hsame hn =>
    refine registered_takeAndSpawn (m := { m with pendings := m.pendings.set p pending' }) hn
      (h.indexed.setPending hp hsame.queryId hsame.taken)
      (forall_mem_set (fun pending₀ hmem htaken _ => h.armed pending₀ hmem htaken)
        fun _ hne => absurd hsame.queryId hne)
      (fun task htask => (h.stops task htask).mono fun q => Taken.setPending hp fun hold => hsame.taken.trans hold) rfl

end Multiplexer

section
variable {exchanges exchanges' : List Exchange} {pendings pendings' : List PendingQuery} {tasks tasks' : List Task}
  {i x : Nat} {task : Task} (h : Accounted exchanges pendings tasks)
include h

theorem Accounted.of_eq (hlength : exchanges'.length = exchanges.length)
    (haccount : ∀ x, account exchanges' pendings' tasks' x = account exchanges pendings tasks x) :
    Accounted exchanges' pendings' tasks' := by
  intro x
  rw [haccount, hlength]
  exact h x

theorem Accounted.setTask (hi : tasks[i]? = some task) (task' : Task) (hsame : ∀ x, task'.holds x = task.holds x) :
    Accounted exchanges pendings (tasks.set i task') := by
  refine h.of_eq rfl fun x => ?_
  have hcount := account_setTask exchanges pendings hi task' x
  rw [hsame] at hcount
  omega

theorem Accounted.exchange :
    Accounted (exchanges ++ [⟨none, []⟩]) pendings (tasks ++ [.acquire exchanges.length true true]) := by
  intro x
  have hx := h x
  rw [account_spawn]
  simp only [account, Task.holds, length_append, length_singleton, List.getElem?_append,
    List.getElem?_singleton] at hx ⊢
  by_cases hlt : x < exchanges.length
  · have hne : exchanges.length ≠ x := by omega
    rw [if_pos hlt] at hx
    simp only [hlt, if_true, beq_iff_eq, hne, if_false]
    rw [if_pos (by omega)]
    omega
  · rw [if_neg hlt, List.getElem?_eq_none (by omega)] at hx
    rw [if_neg hlt]
    simp only [map_none, getD_none] at hx
    by_cases heq : x = exchanges.length
    · subst heq
      simpa using hx
    · have hne : exchanges.length ≠ x := fun h => heq h.symm
      rw [if_neg (by omega : ¬x - exchanges.length = 0)]
      simp only [beq_iff_eq, hne, if_false, map_none, getD_none]
      rw [if_neg (by omega)]
      omega

theorem Accounted.callback {reply : Reply} (hi : tasks[i]? = some (.callback x reply)) :
    Accounted (exchanges.modify x fun e => { e with replies := e.replies ++ [reply] }) pendings
      (tasks.set i .finished) := by
  refine h.of_eq (length_modify _ _ _) fun y => ?_
  have hset := account_setTask exchanges pendings hi .finished y
  simp only [Task.holds, false_eq_true, if_false, beq_iff_eq] at hset
  by_cases hxy : x = y
  · subst hxy
    -- the exchange is there, since the task holds its token
    have hx := h x
    have hlt : x < exchanges.length := by
      by_contra hge
      rw [if_neg hge] at hx
      simp only [if_true] at hset
      omega
    obtain ⟨e, he⟩ : ∃ e, exchanges[x]? = some e := ⟨_, List.getElem?_eq_getElem hlt⟩
    simp only [account, List.getElem?_modify, he, if_true, Option.map_eq_map, Option.map_some, getD_some, length_append,
      length_singleton] at hset ⊢
    omega
  · simp only [account, List.getElem?_modify, hxy, if_false, Option.map_eq_map, Option.map_id'] at hset ⊢
    omega

end

namespace Multiplexer

variable {m m' : Multiplexer}

theorem accounted_takeAndSpawn (h : Accounted m.exchanges m.pendings m.tasks) (hm : Indexed m.queries m.pendings)
    {queryId : UInt16} {next : Multiplexer → PendingQuery → Multiplexer × Task} (hn : Answers next)
    (hs : m.takeAndSpawn queryId next = m') : Accounted m'.exchanges m'.pendings m'.tasks := by
  rcases takeAndSpawn_cases hn with ⟨_, heq⟩ | ⟨p, pending, conns, task, hq, hp, hholds, _, heq⟩ <;> rw [← hs, heq]
  · exact h
  · refine h.of_eq rfl fun x => ?_
    rw [account_spawn, ← account_take hp hm hq, Task.holds, hholds]
    simp only [beq_iff_eq]

theorem accounted_move {l : Label} (h : Accounted m.exchanges m.pendings m.tasks)
    (hr : Registered m.queries m.pendings m.tasks) (hown : m.writesOwn l = true) (hm : m.Move l m') :
    Accounted m'.exchanges m'.pendings m'.tasks := by
  cases hm with
  | exchange => exact h.exchange
  | endContext x err =>
    refine h.of_eq (length_modify _ _ _) fun y => ?_
    simp only [account, List.getElem?_modify, Option.map_eq_map, Option.map_map]
    congr 3
    funext e
    simp only [comp]
    split <;> rfl
  | conns => exact h
  | respond conn queryId conns =>
    exact accounted_takeAndSpawn (m := { m with conns := conns }) h hr.indexed (answers_response queryId) rfl
  | goOn l i task task' conns hi hsame => exact h.setTask hi task' hsame
  | register l i x retry firstAttempt created pending hi _ hx htaken =>
    refine h.of_eq rfl fun y => ?_
    -- the token passes from the goroutine to the pending query
    have hcount := countP_set_add (p := Task.holds y) hi
      (.write x retry firstAttempt pending.conn created pending.queryId)
    simp only [Task.holds, false_eq_true, if_false, beq_iff_eq] at hcount
    simp only [account, setTask, countP_append, countP_singleton, holds, hx, htaken,
      Bool.not_false, Bool.true_and, beq_iff_eq]
    omega
  | writeTook i x retry firstAttempt created conn queryId m₁ p pending next hi ht hnext =>
    -- what a failed write took was its own
    have hx : pending.exchange = x := by
      simpa [writesOwn, hi, ht] using hown
    subst hx
    obtain ⟨hq, hp, rfl⟩ := take_eq_some ht
    refine h.of_eq rfl fun y => ?_
    have htake := account_take hp hr.indexed hq m.exchanges m.tasks y
    have hset := account_setTask m.exchanges (m.pendings.set p { pending with taken := true }) hi (.stop p next) y
    have hholds : (Task.stop p next).holds y = (pending.exchange == y) := hnext y
    rw [hholds] at hset
    simp only [Task.holds, false_eq_true, if_false, beq_iff_eq] at hset
    simp only [invalidate, setTask]
    omega
  | stop l i p next hi =>
    have hstopped : Accounted m.exchanges (m.pendings.modify p PendingQuery.stop) m.tasks := by
      refine h.of_eq rfl fun y => ?_
      have hholds : ∀ pending : PendingQuery, pending.stop.holds y = pending.holds y := fun _ => rfl
      simp only [account, countP_modify_eq hholds]
    exact hstopped.setTask hi next fun _ => rfl
  | callback l i x reply hi => exact h.callback hi
  | start l p pending pending' hp hsame => exact h.of_eq rfl (account_setPending hp hsame)
  | run l p pending pending' next hp hsame hn =>
    exact accounted_takeAndSpawn (m := { m with pendings := m.pendings.set p pending' })
      (h.of_eq rfl (account_setPending hp hsame)) (hr.indexed.setPending hp hsame.queryId hsame.taken) hn rfl

/-- No goroutine has a step to take. -/
def Quiet (m : Multiplexer) (retryReadError : Bool) : Prop :=
  ∀ l, l.internal = true → m.step retryReadError l = none

section
variable {retryReadError : Bool} (h : m.Quiet retryReadError)
include h

theorem Quiet.tasks {i : Nat} {task : Task} (hi : m.tasks[i]? = some task) : task = .finished := by
  cases task with
  | acquire x retry firstAttempt =>
    have := h (.acquire i none) rfl
    simp [step, acquire, hi] at this
  | register x retry firstAttempt conn created =>
    have := h (.register i) rfl
    simp only [step, register, hi] at this
    split at this <;> cases this
  | write x retry firstAttempt conn created queryId =>
    have := h (.write i false) rfl
    simp [step, write, hi] at this
  | stop p next =>
    have := h (.stop i) rfl
    simp [step, stop, hi] at this
  | callback x reply =>
    have := h (.callback i) rfl
    simp [step, callback, hi] at this
  | finished => rfl

/-- A query cannot be pending when its context has ended and nothing is left to run. -/
theorem Quiet.taken (hr : Registered m.queries m.pendings m.tasks) {p : Nat} {pending : PendingQuery}
    (hp : m.pendings[p]? = some pending)
    (hended : (m.contextErr pending.exchange).isSome) : pending.taken = true := by
  by_contra htaken
  rw [not_eq_true] at htaken
  rcases (hr.armed pending (mem_of_getElem? hp) htaken).1 with hwaiting | hrunning
  · have := h (.startContext p) rfl
    simp [step, startContext, hp, hwaiting, hended] at this
  · have := h (.runContext p) rfl
    simp [step, runContext, hp, hrunning] at this

end

end Multiplexer

section
variable {retryReadError : Bool} {past : List (Multiplexer × Label)} {m : Multiplexer}

theorem registered_run (hrun : (machine retryReadError).Run past m) : Registered m.queries m.pendings m.tasks := by
  refine hrun.always (I := fun m => Registered m.queries m.pendings m.tasks) ?_ fun m m' l h hs =>
    registered_move h (step_move hs)
  rintro m rfl
  refine ⟨fun queryId p => ?_, nofun, nofun⟩
  simp [Multiplexer.new]

theorem accounted_run (hrun : (machine retryReadError).Run past m)
    (hown : System.Along (fun m l => m.writesOwn l = true) past) :
    Accounted m.exchanges m.pendings m.tasks := by
  refine (hrun.invariant (I := fun m => Registered m.queries m.pendings m.tasks ∧
    Accounted m.exchanges m.pendings m.tasks) ?_ ?_ hown).2
  · rintro m rfl
    refine ⟨registered_run (.start _ rfl : (machine retryReadError).Run [] _), fun x => ?_⟩
    simp [account, Multiplexer.new]
  · rintro m m' l ⟨hr, h⟩ hl hs
    have hm := step_move hs
    exact ⟨registered_move hr hm, accounted_move h hr hl hm⟩

/-- In every run in which a failed write finds nothing of another exchange under its ID, no callback is
invoked twice, pending queries have distinct IDs, and when every context has ended and nothing is left to
run, every callback has been invoked and nothing is pending. -/
theorem answered_once (hrun : (machine retryReadError).Run past m)
    (hown : System.Along (fun m l => m.writesOwn l = true) past) :
    (∀ e ∈ m.exchanges, e.replies.length ≤ 1) ∧
    (∀ (p q : Nat) (pending pending' : PendingQuery), m.pendings[p]? = some pending → m.pendings[q]? = some pending' →
      pending.taken = false → pending'.taken = false → pending.queryId = pending'.queryId → p = q) ∧
    (m.Quiet retryReadError → (∀ e ∈ m.exchanges, e.ended.isSome) →
      (∀ e ∈ m.exchanges, e.replies.length = 1) ∧ ∀ queryId, m.queries queryId = none) := by
  have hr := registered_run hrun
  have ha := accounted_run hrun hown
  have hreplies : ∀ (x : Nat) (e : Exchange), m.exchanges[x]? = some e →
      m.tasks.countP (Task.holds x) + m.pendings.countP (holds x) + e.replies.length = 1 := by
    intro x e he
    have hx := ha x
    rw [if_pos (lt_of_getElem? he), account, he] at hx
    exact hx
  refine ⟨fun e he => ?_, fun p q pending pending' hp hq ht ht' hid => ?_, fun hquiet hended => ?_⟩
  · obtain ⟨x, hx⟩ := mem_iff_getElem?.mp he
    have := hreplies x e hx
    omega
  · have hp' := (hr.indexed pending.queryId p).mpr ⟨pending, hp, ht, rfl⟩
    have hq' := (hr.indexed pending.queryId q).mpr ⟨pending', hq, ht', hid.symm⟩
    exact some.inj (hp'.symm.trans hq')
  · have htaken : ∀ (p : Nat) (pending : PendingQuery), m.pendings[p]? = some pending → pending.taken = true := by
      intro p pending hp
      by_contra hfalse
      rw [not_eq_true] at hfalse
      -- the exchange of a pending query is there, since the query holds its token
      have hpos : 0 < m.pendings.countP (holds pending.exchange) := by
        refine countP_pos_iff.mpr ⟨pending, mem_of_getElem? hp, ?_⟩
        simp [holds, hfalse]
      have hlt : pending.exchange < m.exchanges.length := by
        by_contra hge
        have hx := ha pending.exchange
        rw [if_neg hge, account] at hx
        omega
      have htrue := hquiet.taken hr hp (by
        rw [contextErr, List.getElem?_eq_getElem hlt, bind_some]
        exact hended _ (getElem_mem hlt))
      rw [hfalse] at htrue
      cases htrue
    have htasks : ∀ x, m.tasks.countP (Task.holds x) = 0 := by
      intro x
      refine countP_eq_zero.mpr fun task ht => ?_
      obtain ⟨i, hi⟩ := mem_iff_getElem?.mp ht
      rw [hquiet.tasks hi]
      exact false_ne_true
    have hpendings : ∀ x, m.pendings.countP (holds x) = 0 := by
      intro x
      refine countP_eq_zero.mpr fun pending hp => ?_
      obtain ⟨p, hp⟩ := mem_iff_getElem?.mp hp
      rw [holds, htaken p pending hp]
      exact false_ne_true
    refine ⟨fun e he => ?_, fun queryId => ?_⟩
    · obtain ⟨x, hx⟩ := mem_iff_getElem?.mp he
      have := hreplies x e hx
      rw [htasks, hpendings] at this
      omega
    · cases hq : m.queries queryId with
      | none => rfl
      | some p =>
        obtain ⟨pending, hp, hfalse, _⟩ := (hr.indexed queryId p).mp hq
        rw [htaken p pending hp] at hfalse
        cases hfalse

end

/-- A query whose write fails and that is dispatched on another connection, where it is answered. -/
def retriedExchange : List Label :=
  [.exchange, .acquire 0 (some (0, false)), .register 0, .write 0 true, .stop 0, .acquire 0 (some (1, true)),
    .register 0, .write 0 false, .receive 1 (some 2), .stop 1, .callback 1, .endContext 0 .canceled]

theorem answered_once_retried :
    ∃ past m e, (machine true).Run past m ∧ System.Along (fun m l => m.writesOwn l = true) past ∧
      m.exchanges = [e] ∧ e.replies = [.response 2] ∧ e.replies.length ≤ 1 := by
  obtain ⟨m, hm, hex⟩ : ∃ m, (machine true).exec retriedExchange .new = some m ∧
      m.exchanges = [⟨some .canceled, [.response 2]⟩] := ⟨_, rfl, rfl⟩
  have hrun := System.run_exec (.start _ rfl : (machine true).Run [] .new) hm
  have hown : System.Along (fun m l => m.writesOwn l = true) ((machine true).trace retriedExchange .new []) :=
    System.along_exec (by decide +kernel)
  refine ⟨_, m, _, hrun, hown, hex, rfl, (answered_once hrun hown).1 _ ?_⟩
  rw [hex]
  exact mem_singleton_self _

theorem nextFree_next {queries : UInt16 → Option Nat} {q : UInt16} (h : queries (q + 1) = none) :
    nextFree queries q 65536 q = some (q + 1) := by
  show nextFree queries q (65535 + 1) q = _
  rw [nextFree, h]
  rfl

section
variable {retryReadError : Bool} {past : List (Multiplexer × Label)} {m : Multiplexer}

/-- Another exchange is registered under the ID behind `q` and answered. -/
def answeredExchange (n : Nat) (q : UInt16) : List Label :=
  [.exchange, .acquire n (some (0, false)), .register n, .write n false, .receive 0 (some (q + 1)), .stop (n + 1),
    .callback (n + 1)]

/-- Nothing is pending and the counter stands at `q`; the first task and the first exchange are given. -/
structure Spun (q : UInt16) (task : Task) (e : Exchange) (m : Multiplexer) : Prop where
  queries : ∀ queryId, m.queries queryId = none
  conns : 0 < m.conns.length
  queryId : m.queryId = q
  tasks : ∃ rest, m.tasks = task :: rest
  exchanges : ∃ rest, m.exchanges = e :: rest

variable {q : UInt16} {task : Task} {e : Exchange} (h : Spun q task e m) (hrun : (machine retryReadError).Run past m)
include h hrun

theorem Spun.next :
    ∃ past' m', (machine retryReadError).Run past' m' ∧ Spun (q + 1) task e m' := by
  obtain ⟨hqueries, hconns, rfl, ⟨tasks, htasks⟩, ⟨exchanges, hexchanges⟩⟩ := h
  have hfree := nextFree_next (hqueries (m.queryId + 1))
  suffices hexec : ∃ m', (machine retryReadError).exec (answeredExchange m.tasks.length m.queryId) m = some m' ∧
      Spun (m.queryId + 1) task e m' by
    obtain ⟨m', hm', hspun⟩ := hexec
    exact ⟨_, m', System.run_exec hrun hm', hspun⟩
  simp [answeredExchange, System.exec, machine, Multiplexer.step, Multiplexer.spawn, Multiplexer.acquire,
    Multiplexer.setTask, Multiplexer.register, Multiplexer.write, Multiplexer.receive, Multiplexer.takeAndSpawn,
    Multiplexer.take, Multiplexer.stop, Multiplexer.callback, hconns, hfree]
  refine ⟨fun queryId => ?_, ?_, rfl, ?_, ?_⟩
  · by_cases hid : queryId = m.queryId + 1
    · simp [hid]
    · simp [update_of_ne hid, hqueries]
  · simpa using hconns
  · simp [htasks]
  · simp [hexchanges]

theorem Spun.turns (n : Nat) :
    ∃ past' m', (machine retryReadError).Run past' m' ∧ Spun (q + UInt16.ofNat n) task e m' := by
  induction n with
  | zero => exact ⟨past, m, hrun, by simpa using h⟩
  | succ n ih =>
    obtain ⟨past', m', hrun', h'⟩ := ih
    obtain ⟨past'', m'', hrun'', h''⟩ := h'.next hrun'
    refine ⟨past'', m'', hrun'', ?_⟩
    rw [UInt16.ofNat_add, ← UInt16.add_assoc]
    exact h''

end

/-- The first exchange is answered by its context between `register` and the write. -/
def canceledExchange : List Label :=
  [.exchange, .acquire 0 (some (0, true)), .register 0, .endContext 0 .canceled, .startContext 0, .runContext 0,
    .stop 1, .callback 1]

/-- Another exchange gets the ID of the first, and then the write of the first fails. -/
def lateFailure (n : Nat) : List Label :=
  [.exchange, .acquire n (some (0, false)), .register n, .write 0 true, .stop 0, .callback 0]

theorem late_write_failure_answers_twice :
    ∃ past m e, (machine false).Run past m ∧ m.exchanges[0]? = some e ∧
      e.replies = [.contextError .canceled, .writeError] := by
  obtain ⟨m, hm, hspun⟩ : ∃ m, (machine false).exec canceledExchange .new = some m ∧
      Spun 1 (.write 0 true true 0 true 1) ⟨some .canceled, [.contextError .canceled]⟩ m := by
    refine ⟨_, rfl, fun queryId => ?_, by decide, rfl, ⟨_, rfl⟩, ⟨_, rfl⟩⟩
    show update (update (fun _ => none) (0 + 1 : UInt16) (some 0)) (0 + 1 : UInt16) none queryId = none
    rw [update_idem, update_eq_self]
  have hrun := System.run_exec (.start _ rfl : (machine false).Run [] .new) hm
  -- all other IDs are used once, and the counter is back in front of the first
  obtain ⟨past, m, hrun, hqueries, hconns, hid, ⟨tasks, htasks⟩, ⟨exchanges, hexchanges⟩⟩ := hspun.turns hrun 65535
  have hzero : m.queryId = 0 := hid
  have hfree := nextFree_next (hqueries (m.queryId + 1))
  rw [hzero] at hfree
  obtain ⟨m', hm', he⟩ : ∃ m', (machine false).exec (lateFailure m.tasks.length) m = some m' ∧
      m'.exchanges[0]? = some ⟨some .canceled, [.contextError .canceled, .writeError]⟩ := by
    simp [lateFailure, System.exec, machine, Multiplexer.step, Multiplexer.spawn, Multiplexer.acquire,
      Multiplexer.setTask, Multiplexer.register, Multiplexer.write, Multiplexer.invalidate, Multiplexer.take,
      Multiplexer.stop, Multiplexer.callback, hconns, hzero, hfree, htasks, hexchanges]
  exact ⟨_, m', _, System.run_exec hrun hm', he, rfl⟩

end SingBox.Transport
