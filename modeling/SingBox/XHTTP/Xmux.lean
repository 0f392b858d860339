import SingBox.Lib.Transition
import SingBox.Lib.Count
import Mathlib.Logic.Function.Basic

/-!
# The clients of an XHTTP transport

An `XmuxManager` hands clients to sessions. A session counts itself on the clients it dials with
after it has them, and not at all on those its posts switch to. Every `GetXmuxClient` takes the used-up
clients out of the pool and closes those that nobody is counted on.
-/
namespace SingBox.XHTTP

open Lib List Function

structure Range where
  first : Int
  last : Int

/-- `Rand` may return `x`. -/
def Range.draws (r : Range) (x : Int) : Prop := if r.first = r.last then x = r.first else r.first ≤ x ∧ x < r.last

instance (r : Range) (x : Int) : Decidable (r.draws x) := by
  unfold Range.draws
  infer_instance

/-- The options of a manager, with the two values that it draws when it is made. -/
structure XmuxOptions where
  cMaxReuseTimes : Range
  hMaxRequestTimes : Range
  hMaxReusableSecs : Range
  concurrency : Int
  connections : Int

/-- `XmuxClient`. `conn` tells whether `XmuxConn.Close` was called and `failed` whether a request on it
failed; `handed` counts how often `GetXmuxClient` returned it, and `reuseTimes` is what was drawn for it. -/
structure XmuxClient where
  openUsage : Int
  leftUsage : Int
  leftRequests : Int32
  unreusableAt : Option Int
  closed : Bool
  conn : Bool
  failed : Bool
  handed : Int
  reuseTimes : Int

namespace XmuxClient

variable (c : XmuxClient)

def close : XmuxClient := { c with closed := true, conn := c.conn || c.openUsage ≤ 0 }

def addOpenUsage (delta : Int) : XmuxClient :=
  { c with openUsage := c.openUsage + delta, conn := c.conn || c.closed && decide (c.openUsage + delta ≤ 0) }

def expired (now : Int) : Bool := c.unreusableAt.any fun at_ => decide (at_ < now)

/-- `GetXmuxClient` takes it out of the pool. -/
def usedUp (now : Int) : Bool :=
  (c.conn || c.failed) || c.leftUsage == 0 || decide (c.leftRequests ≤ 0) || c.expired now

end XmuxClient

inductive Stage where
  | got
  | gotBoth
  | counted
  | running
  | closing
  | over
  deriving DecidableEq

/-- A session of `DialContext`. With one leg on this manager `download` is `upload`. `switched` are the
clients that its posts switched to, the last of which is in `dynamic`. -/
structure Session where
  oneLeg : Bool
  upload : Nat
  download : Nat
  stage : Stage
  dynamic : Nat
  due : Bool
  switched : List Nat
  deriving DecidableEq

namespace Session

variable (w : Session)

/-- The clients the session uses. -/
def uses : List Nat :=
  match w.stage with
  | .got => [w.upload]
  | .gotBoth | .counted => [w.upload, w.download]
  | .running => w.upload :: w.download :: w.switched
  | .closing => [w.download]
  | .over => []

/-- The clients that it is counted on. -/
def counts : List Nat :=
  match w.stage with
  | .got | .gotBoth | .over => []
  | .counted => [w.upload]
  | .running => [w.upload, w.download]
  | .closing => [w.download]

end Session

/-- `XmuxManager`, the clients it made, by number, and the sessions. -/
structure XmuxManager where
  clients : Nat → XmuxClient
  made : Nat
  xmuxClients : List Nat
  sessions : List Session
  now : Int
  closed : Bool

/-- What `GetXmuxClient` draws: the place among the clients it may return, and the limits of a new one. -/
structure Draw where
  choice : Nat
  reuseTimes : Int
  requestTimes : Int
  reusableSecs : Int

section
variable (o : XmuxOptions) (m : XmuxManager)

namespace XmuxManager

def newXmuxClient (d : Draw) : Option (XmuxManager × Nat) :=
  if o.cMaxReuseTimes.draws d.reuseTimes ∧ o.hMaxRequestTimes.draws d.requestTimes ∧
      o.hMaxReusableSecs.draws d.reusableSecs then
    let client : XmuxClient :=
      { openUsage := 0
        leftUsage := if 0 < d.reuseTimes then d.reuseTimes - 1 else -1
        leftRequests := if 0 < d.requestTimes then .ofInt d.requestTimes else 2147483647
        unreusableAt := if 0 < d.reusableSecs then some (m.now + d.reusableSecs) else none
        closed := false
        conn := false
        failed := false
        handed := 1
        reuseTimes := d.reuseTimes }
    some ({ m with
      clients := update m.clients m.made client
      made := m.made + 1
      xmuxClients := m.xmuxClients ++ [m.made] }, m.made)
  else none

/-- The loops of `GetXmuxClient` that take the used-up clients out of the pool and close them. -/
def evict : XmuxManager :=
  { m with
    clients := fun c => if c ∈ m.xmuxClients ∧ (m.clients c).usedUp m.now then (m.clients c).close else m.clients c
    xmuxClients := m.xmuxClients.filter fun c => !(m.clients c).usedUp m.now }

/-- The clients that `GetXmuxClient` may return of those in the pool. -/
def candidates : List Nat :=
  if 0 < o.concurrency then m.xmuxClients.filter fun c => decide ((m.clients c).openUsage < o.concurrency)
  else m.xmuxClients

def hand (c : Nat) : XmuxManager :=
  let client := m.clients c
  { m with
    clients := update m.clients c
      { client with
        leftUsage := if 0 < client.leftUsage then client.leftUsage - 1 else client.leftUsage
        handed := client.handed + 1 } }

/-- `GetXmuxClient` on a pool without used-up clients. -/
def pick (d : Draw) : Option (XmuxManager × Nat) :=
  if m.xmuxClients = [] ∨ 0 < o.connections ∧ (m.xmuxClients.length : Int) < o.connections ∨ m.candidates o = [] then
    m.newXmuxClient o d
  else (m.candidates o)[d.choice]?.map fun c => (m.hand c, c)

def getXmuxClient (d : Draw) : Option (XmuxManager × Nat) := m.evict.pick o d

def addOpenUsage (c : Nat) (delta : Int) : XmuxManager :=
  { m with clients := update m.clients c ((m.clients c).addOpenUsage delta) }

def addRequests (c : Nat) : XmuxManager :=
  { m with
    clients := update m.clients c { m.clients c with leftRequests := (m.clients c).leftRequests - 1 } }

def setSession (i : Nat) (w : Session) : XmuxManager := { m with sessions := m.sessions.set i w }

end XmuxManager
end

inductive XmuxLabel where
  | dial (oneLeg : Bool) (d : Draw)
  | dialDownload (i : Nat) (d : Draw)
  | count (i : Nat)
  | countDownload (i : Nat)
  | request (i : Nat) (download : Bool)
  | post (i : Nat)
  | switch (i : Nat) (d : Draw)
  | close (i : Nat)
  | closeDownload (i : Nat)
  | abandon (i : Nat)
  | fail (c : Nat)
  | tick (seconds : Nat)
  | closeManager

section
variable (o : XmuxOptions)

/-- A step of a session in the state `w`. A post that finds its client used up switches before it is
sent; posts may go on when the session is over. A dial that fails is abandoned. -/
def XmuxManager.sessionStep (m : XmuxManager) (i : Nat) (w : Session) : XmuxLabel → Option XmuxManager
  | .dialDownload _ d =>
    if w.stage = .got ∧ w.oneLeg = false then
      (m.getXmuxClient o d).map fun (m, c) => m.setSession i { w with download := c, stage := .gotBoth }
    else none
  | .count _ =>
    if w.stage = .gotBoth ∨ w.stage = .got ∧ w.oneLeg then
      let stage := if w.upload = w.download then .running else .counted
      some ((m.addOpenUsage w.upload 1).setSession i { w with stage := stage })
    else none
  | .countDownload _ =>
    if w.stage = .counted then some ((m.addOpenUsage w.download 1).setSession i { w with stage := .running }) else none
  | .request _ download =>
    if w.stage = .running then some (m.addRequests (if download then w.download else w.upload)) else none
  | .post _ =>
    if (w.stage = .running ∨ w.stage = .closing ∨ w.stage = .over) ∧ w.due = false then
      let m := m.addRequests w.dynamic
      let due := decide ((m.clients w.dynamic).leftRequests ≤ 0) || (m.clients w.dynamic).expired m.now
      some (m.setSession i { w with due := due })
    else none
  | .switch _ d =>
    if w.due then
      (m.getXmuxClient o d).map fun (m, c) =>
        m.setSession i { w with dynamic := c, due := false, switched := c :: w.switched }
    else none
  | .close _ =>
    if w.stage = .running then
      let stage := if w.upload = w.download then .over else .closing
      some ((m.addOpenUsage w.upload (-1)).setSession i { w with stage := stage })
    else none
  | .closeDownload _ =>
    if w.stage = .closing then some ((m.addOpenUsage w.download (-1)).setSession i { w with stage := .over }) else none
  | .abandon _ => if w.stage = .running then some (m.setSession i { w with stage := .over }) else none
  | _ => none

/-- The session that a step is of. -/
def XmuxLabel.session : XmuxLabel → Option Nat
  | .dialDownload i _ | .count i | .countDownload i | .request i _ | .post i | .switch i _ | .close i
  | .closeDownload i | .abandon i => some i
  | _ => none

def XmuxManager.step (m : XmuxManager) (l : XmuxLabel) : Option XmuxManager :=
  match l with
  | .dial oneLeg d =>
    (m.getXmuxClient o d).map fun (m, c) =>
      { m with sessions := m.sessions ++ [⟨oneLeg, c, c, .got, c, false, []⟩] }
  | .fail c => some { m with clients := update m.clients c { m.clients c with failed := true } }
  | .tick seconds => some { m with now := m.now + seconds }
  | .closeManager =>
    some { m with
      clients := fun c => if c ∈ m.xmuxClients then (m.clients c).close else m.clients c
      xmuxClients := []
      closed := true }
  | l => l.session.bind fun i => m.sessions[i]?.bind fun w => m.sessionStep o i w l

/-- No client is made before the first dial. -/
def noClient : XmuxClient := ⟨0, -1, 0, none, false, false, false, 0, 0⟩

def xmux : System XmuxManager XmuxLabel where
  init m := m = ⟨fun _ => noClient, 0, [], [], 0, false⟩
  step m l := m.step o l

end

/-- The sessions that use a client are counted on it, but for one. -/
def XmuxManager.othersCounted (m : XmuxManager) (own : Option Nat) (c : Nat) : Bool :=
  m.sessions.zipIdx.all fun (w, j) => own == some j || !decide (c ∈ w.uses) || decide (c ∈ w.counts)

def XmuxLabel.draw : XmuxLabel → Option Draw
  | .dial _ d | .dialDownload _ d | .switch _ d => some d
  | _ => none

/-- `GetXmuxClient` finds every session counted that uses a client it takes out of the pool, and, where
there is a limit, every other session that uses the client it returns. -/
def XmuxManager.steady (o : XmuxOptions) (m : XmuxManager) (l : XmuxLabel) : Bool :=
  match l.draw.bind (m.getXmuxClient o) with
  | none => true
  | some (_, c) =>
    (m.xmuxClients.all fun c => !(m.clients c).usedUp m.now || m.othersCounted none c) &&
      (decide (o.concurrency ≤ 0) || m.othersCounted l.session c)

/-- The clients a session uses or will. -/
def Session.clients (w : Session) : List Nat := w.upload :: w.download :: w.dynamic :: w.switched

/-- A session that is not counted on both its clients yet has sent no post. -/
structure Session.Proper (w : Session) : Prop where
  got : w.stage = .got → w.download = w.upload
  early : w.stage = .got ∨ w.stage = .gotBoth ∨ w.stage = .counted → w.due = false ∧ w.switched = []

/-- How many sessions are counted on a client. -/
def counting (sessions : List Session) (c : Nat) : Nat := sessions.countP fun w => decide (c ∈ w.counts)

/-- How many sessions a client serves. -/
def serving (sessions : List Session) (c : Nat) : Nat := sessions.countP fun w => decide (c ∈ w.uses)

/-- What holds of the reuse of clients in every run. -/
structure Reused (o : XmuxOptions) (m : XmuxManager) : Prop where
  pool : ∀ c ∈ m.xmuxClients, c < m.made
  draws : ∀ c < m.made, o.cMaxReuseTimes.draws (m.clients c).reuseTimes
  reuse : ∀ c < m.made, 0 < (m.clients c).reuseTimes → 0 ≤ (m.clients c).leftUsage ∧
    (m.clients c).handed + (m.clients c).leftUsage ≤ (m.clients c).reuseTimes

/-- What holds of a client in a steady run. -/
structure Serves (sessions : List Session) (isOpen : Prop) (c : Nat) (client : XmuxClient) : Prop where
  counted : (counting sessions c : Int) ≤ client.openUsage
  conn : client.conn = true → client.closed = true
  evicted : isOpen → client.closed = true → ∀ w ∈ sessions, c ∈ w.uses → c ∈ w.counts
  open_ : isOpen → client.conn = true → ∀ w ∈ sessions, c ∉ w.uses

structure Mux (o : XmuxOptions) (m : XmuxManager) : Prop where
  proper : ∀ w ∈ m.sessions, w.Proper
  made : ∀ w ∈ m.sessions, ∀ c ∈ w.clients, c < m.made
  serves : ∀ c, Serves m.sessions (m.closed = false) c (m.clients c)
  pool : ∀ c ∈ m.xmuxClients, (m.clients c).closed = false
  limit : 0 < o.concurrency → ∀ c, (serving m.sessions c : Int) ≤ o.concurrency

/-- A session goes on: it uses no other clients, and stays counted on those that it uses. -/
structure Session.Goes (w w' : Session) : Prop where
  proper : w'.Proper
  clients : w'.clients = w.clients
  uses : ∀ c ∈ w'.uses, c ∈ w.uses
  stays : ∀ c ∈ w'.uses, c ∈ w.counts → c ∈ w'.counts

variable {o : XmuxOptions} {m m' : XmuxManager} {i c : Nat} {w w' : Session} {sessions : List Session}

open Session

theorem Session.counts_subset (w : Session) (h : c ∈ w.counts) : c ∈ w.uses := by
  obtain ⟨_, upload, download, stage, _, _, switched⟩ := w
  cases stage <;> simp_all [counts, uses]
  tauto

theorem Session.uses_subset (w : Session) (h : c ∈ w.uses) : c ∈ w.clients := by
  obtain ⟨_, upload, download, stage, _, _, switched⟩ := w
  cases stage <;> simp_all [uses, clients] <;> tauto

section
variable {isOpen : Prop} {client client' : XmuxClient} (h : Serves sessions isOpen c client)
include h

theorem Serves.frame (husage : client'.openUsage = client.openUsage) (hclosed : client'.closed = client.closed)
    (hconn : client'.conn = client.conn) : Serves sessions isOpen c client' where
  counted := husage ▸ h.counted
  conn hc := hclosed.trans (h.conn (hconn.symm.trans hc))
  evicted hopen hc := h.evicted hopen (hclosed.symm.trans hc)
  open_ hopen hc := h.open_ hopen (hconn.symm.trans hc)

/-- The counter changes and is still no less than the sessions that are counted on the client. -/
theorem Serves.addOpenUsage {delta : Int} (hcount : (counting sessions c : Int) ≤ client.openUsage + delta) :
    Serves sessions isOpen c (client.addOpenUsage delta) := by
  have hconn : (client.addOpenUsage delta).conn = true →
      client.conn = true ∨ client.closed = true ∧ counting sessions c = 0 := by
    intro hc
    rw [XmuxClient.addOpenUsage, Bool.or_eq_true, Bool.and_eq_true, decide_eq_true_eq] at hc
    exact hc.imp_right fun hzero => ⟨hzero.1, by omega⟩
  refine ⟨hcount, fun hc => (hconn hc).elim h.conn And.left, h.evicted, fun hopen hc v hv huse => ?_⟩
  rcases hconn hc with hold | ⟨hclosed, hzero⟩
  · exact h.open_ hopen hold v hv huse
  · -- a session that uses a client out of the pool is counted on it
    exact countP_eq_zero.mp hzero v hv (decide_eq_true (h.evicted hopen hclosed v hv huse))

theorem Serves.close (hcounted : isOpen → ∀ w ∈ sessions, c ∈ w.uses → c ∈ w.counts) :
    Serves sessions isOpen c client.close := by
  refine ⟨h.counted, fun _ => rfl, fun hopen _ => hcounted hopen, fun hopen hc v hv huse => ?_⟩
  rw [XmuxClient.close, Bool.or_eq_true, decide_eq_true_eq] at hc
  rcases hc with hold | hzero
  · exact h.open_ hopen hold v hv huse
  · have hpos : 0 < counting sessions c := countP_pos_iff.mpr ⟨v, hv, decide_eq_true (hcounted hopen v hv huse)⟩
    have := h.counted
    omega

end

section
variable (hs : Mux o m)
include hs

/-- One client changes, and stays in the pool if it is there. -/
theorem Mux.update {client : XmuxClient} (h : Serves m.sessions (m.closed = false) c client)
    (hclosed : client.closed = (m.clients c).closed) : Mux o { m with clients := update m.clients c client } where
  proper := hs.proper
  made := hs.made
  serves := (forall_update_iff m.clients (Serves m.sessions (m.closed = false))).mpr ⟨h, fun c' _ => hs.serves c'⟩
  pool := (forall_update_iff m.clients fun c' client => c' ∈ m.xmuxClients → client.closed = false).mpr
    ⟨fun hc => hclosed.trans (hs.pool c hc), fun c' _ => hs.pool c'⟩
  limit := hs.limit

theorem Mux.addRequests (c : Nat) : Mux o (m.addRequests c) := hs.update ((hs.serves c).frame rfl rfl rfl) rfl

theorem Mux.usage {delta : Int} (hcount : (counting m.sessions c : Int) ≤ (m.clients c).openUsage + delta) :
    Mux o (m.addOpenUsage c delta) :=
  hs.update ((hs.serves c).addOpenUsage hcount) rfl

/-- The sessions change by one, which is counted on those of its clients that are out of the pool. -/
theorem Mux.setSessions (hmem : ∀ v ∈ sessions, v ∈ m.sessions ∨ v = w)
    (hproper : w.Proper) (hmade : ∀ c ∈ w.clients, c < m.made)
    (hcounted : ∀ c, (counting sessions c : Int) ≤ (m.clients c).openUsage)
    (hlimit : 0 < o.concurrency → ∀ c, (serving sessions c : Int) ≤ o.concurrency)
    (hown : m.closed = false → ∀ c ∈ w.uses,
      ((m.clients c).closed = true → c ∈ w.counts) ∧ (m.clients c).conn = false) :
    Mux o { m with sessions } := by
  have hall : ∀ P : Session → Prop, (∀ v ∈ m.sessions, P v) → P w → ∀ v ∈ sessions, P v := by
    intro P hold hnew v hv
    rcases hmem v hv with hv | rfl
    · exact hold v hv
    · exact hnew
  refine ⟨hall _ hs.proper hproper, hall _ hs.made hmade, fun c => ⟨hcounted c, (hs.serves c).conn, fun hopen hc => ?_,
    fun hopen hc => ?_⟩, hs.pool, hlimit⟩
  · exact hall _ ((hs.serves c).evicted hopen hc) fun huse => (hown hopen c huse).1 hc
  · exact hall _ ((hs.serves c).open_ hopen hc) fun huse =>
      Bool.false_ne_true ((hown hopen c huse).2.symm.trans hc)

theorem Mux.evict (h : m.closed = false → ∀ c ∈ m.xmuxClients, (m.clients c).usedUp m.now = true →
    ∀ w ∈ m.sessions, c ∈ w.uses → c ∈ w.counts) : Mux o m.evict := by
  refine ⟨hs.proper, hs.made, fun c => ?_, fun c hc => ?_, hs.limit⟩
  · simp only [XmuxManager.evict]
    split
    next hc => exact (hs.serves c).close fun hopen => h hopen c hc.1 hc.2
    · exact hs.serves c
  · obtain ⟨hpool, hfresh⟩ := mem_filter.mp hc
    simp only [Bool.not_eq_true'] at hfresh
    simpa [XmuxManager.evict, hfresh] using hs.pool c hpool

variable (hi : m.sessions[i]? = some w)
include hi

theorem Mux.uses_counted (hopen : m.closed = false) (huse : c ∈ w.uses) :
    ((m.clients c).closed = true → c ∈ w.counts) ∧ (m.clients c).conn = false :=
  ⟨fun hc => (hs.serves c).evicted hopen hc w (mem_of_getElem? hi) huse,
    eq_false_of_ne_true fun hc => (hs.serves c).open_ hopen hc w (mem_of_getElem? hi) huse⟩

theorem Mux.setSession (h : w.Goes w')
    (hcounted : ∀ c, (counting (m.sessions.set i w') c : Int) ≤ (m.clients c).openUsage) :
    Mux o (m.setSession i w') := by
  refine hs.setSessions (fun v => mem_or_eq_of_mem_set) h.proper (h.clients ▸ hs.made w (mem_of_getElem? hi)) hcounted
    (fun hlimit c => ?_) fun hopen c huse => ?_
  · have hle := countP_set_le (p := fun w => decide (c ∈ w.uses)) hi (b := w') (by simpa using h.uses c)
    exact Int.le_trans (Int.ofNat_le.mpr hle) (hs.limit hlimit c)
  · exact (hs.uses_counted hi hopen (h.uses c huse)).imp_left fun hcounts hc => h.stays c huse (hcounts hc)

theorem Mux.counted_set (c : Nat) (hcounts : c ∈ w'.counts → c ∈ w.counts) :
    (counting (m.sessions.set i w') c : Int) ≤ (m.clients c).openUsage := by
  have hle := countP_set_le (p := fun w => decide (c ∈ w.counts)) hi (b := w') (by simpa using hcounts)
  exact Int.le_trans (Int.ofNat_le.mpr hle) (hs.serves c).counted

theorem Mux.count (h : w.Goes w') (hcounts : ∀ c' ∈ w'.counts, c' = c ∨ c' ∈ w.counts) :
    Mux o ((m.addOpenUsage c 1).setSession i w') := by
  have husage := hs.usage (c := c) (Int.le_add_one (hs.serves c).counted)
  refine husage.setSession hi h fun c' => ?_
  by_cases hc : c' = c
  · subst hc
    have hcount := countP_set_add (p := fun w => decide (c' ∈ w.counts)) hi w'
    have hold := (hs.serves c').counted
    simp only [counting, XmuxManager.addOpenUsage, update_self, XmuxClient.addOpenUsage] at hold ⊢
    split at hcount <;> split at hcount <;> omega
  · exact husage.counted_set hi c' fun hw' => (hcounts c' hw').resolve_left hc

theorem Mux.uncount (h : w.Goes w') (hcounts : ∀ c ∈ w'.counts, c ∈ w.counts) (hc : c ∈ w.counts)
    (hc' : c ∉ w'.counts) : Mux o ((m.addOpenUsage c (-1)).setSession i w') := by
  refine (hs.setSession hi h fun c => hs.counted_set hi c (hcounts c)).usage ?_
  have hcount := countP_set_add (p := fun w => decide (c ∈ w.counts)) hi w'
  have hold := (hs.serves c).counted
  simp only [hc, hc', decide_true, decide_false, Bool.false_eq_true, if_true, if_false] at hcount
  simp only [counting, XmuxManager.setSession] at hold ⊢
  omega

end

/-! ### Reuse -/

theorem mem_of_mem_candidates (h : c ∈ m.candidates o) : c ∈ m.xmuxClients := by
  unfold XmuxManager.candidates at h
  split at h
  · exact mem_of_mem_filter h
  · exact h

theorem Reused.frame {clients : Nat → XmuxClient} {xmuxClients : List Nat} {now : Int}
    {closed : Bool} (hr : Reused o m) (hpool : ∀ c ∈ xmuxClients, c ∈ m.xmuxClients)
    (h : ∀ c, (clients c).leftUsage = (m.clients c).leftUsage ∧ (clients c).handed = (m.clients c).handed ∧
      (clients c).reuseTimes = (m.clients c).reuseTimes) :
    Reused o ⟨clients, m.made, xmuxClients, sessions, now, closed⟩ where
  pool c hc := hr.pool c (hpool c hc)
  draws c hc := by simpa only [h c] using hr.draws c hc
  reuse c hc := by simpa only [h c] using hr.reuse c hc

theorem Reused.update {client : XmuxClient} (hr : Reused o m)
    (h : client.leftUsage = (m.clients c).leftUsage ∧ client.handed = (m.clients c).handed ∧
      client.reuseTimes = (m.clients c).reuseTimes) :
    Reused o { m with clients := update m.clients c client, sessions := sessions } := by
  refine hr.frame (fun _ h => h) fun c' => ?_
  by_cases hc : c' = c
  · subst hc
    simpa using h
  · simp [hc]

theorem Reused.evict (hr : Reused o m) : Reused o m.evict := by
  refine hr.frame (fun _ h => mem_of_mem_filter h) fun c => ?_
  split <;> exact ⟨rfl, rfl, rfl⟩

variable {l : XmuxLabel} {d : Draw}

theorem Reused.newXmuxClient (hr : Reused o m) (h : m.newXmuxClient o d = some (m', c)) : Reused o m' := by
  simp only [XmuxManager.newXmuxClient, Option.ite_none_right_eq_some, Option.some.injEq, Prod.mk.injEq] at h
  obtain ⟨⟨hreuse, _, _⟩, rfl, rfl⟩ := h
  have hold : ∀ c < m.made + 1, c ≠ m.made → c < m.made := fun c hc hm => Nat.lt_of_le_of_ne (Nat.le_of_lt_succ hc) hm
  refine ⟨fun c hc => ?_, fun c hc => ?_, fun c hc hlimit => ?_⟩
  · rcases mem_append.mp hc with hc | hc
    · exact Nat.lt_succ_of_lt (hr.pool c hc)
    · rw [mem_singleton.mp hc]
      exact Nat.lt_succ_self _
  all_goals by_cases hm : c = m.made
  · simpa [hm] using hreuse
  · simpa [hm] using hr.draws c (hold c hc hm)
  · simp only [hm, update_self] at hlimit ⊢
    rw [if_pos hlimit]
    omega
  · simp only [update_of_ne hm] at hlimit ⊢
    exact hr.reuse c (hold c hc hm) hlimit

theorem Reused.hand (hr : Reused o m) (hleft : (m.clients c).leftUsage ≠ 0) : Reused o (m.hand c) := by
  refine ⟨hr.pool, fun c' hc' => ?_, fun c' hc' => ?_⟩ <;> by_cases h : c' = c
  · simpa [XmuxManager.hand, h] using hr.draws c (h ▸ hc')
  · simpa [XmuxManager.hand, h] using hr.draws c' hc'
  · subst h
    simp only [XmuxManager.hand, update_self]
    intro hlimit
    have hold := hr.reuse c' hc' hlimit
    rw [if_pos (by omega)]
    omega
  · simpa [XmuxManager.hand, h] using hr.reuse c' hc'

/-- The client that is returned is new, or one of those that may be. -/
theorem getXmuxClient_cases (h : m.getXmuxClient o d = some (m', c)) :
    m.evict.newXmuxClient o d = some (m', c) ∨ c ∈ m.evict.candidates o ∧ m' = m.evict.hand c := by
  unfold XmuxManager.getXmuxClient XmuxManager.pick at h
  split at h
  · exact .inl h
  · obtain ⟨c', hc', ⟨⟩⟩ := Option.map_eq_some_iff.mp h
    exact .inr ⟨mem_of_getElem? hc', rfl⟩

theorem Reused.get (hr : Reused o m) (h : m.getXmuxClient o d = some (m', c)) : Reused o m' := by
  rcases getXmuxClient_cases h with h | ⟨hc, rfl⟩
  · exact hr.evict.newXmuxClient h
  · obtain ⟨_, hfresh⟩ := mem_filter.mp (mem_of_mem_candidates hc)
    rw [Bool.not_eq_true'] at hfresh
    refine hr.evict.hand fun hzero => ?_
    have hkept : m.evict.clients c = m.clients c := by simp [XmuxManager.evict, hfresh]
    simp [XmuxClient.usedUp, hkept ▸ hzero] at hfresh

/-! ### Clients in use -/

/-- What `GetXmuxClient` returned: a client of the pool that is new, or that fewer sessions than the
limit are counted on. -/
structure Got (o : XmuxOptions) (sessions : List Session) (m : XmuxManager) (c : Nat) : Prop where
  mux : Mux o m
  sessions : m.sessions = sessions
  made : c < m.made
  inPool : (m.clients c).closed = false
  few : 0 < o.concurrency → (m.clients c).openUsage < o.concurrency

theorem Mux.newXmuxClient (hs : Mux o m) (hr : Reused o m) (h : m.newXmuxClient o d = some (m', c)) :
    Got o m.sessions m' c := by
  simp only [XmuxManager.newXmuxClient, Option.ite_none_right_eq_some, Option.some.injEq, Prod.mk.injEq] at h
  obtain ⟨_, rfl, rfl⟩ := h
  have hnone : ∀ w ∈ m.sessions, m.made ∉ w.counts :=
    fun w hw hc => Nat.lt_irrefl _ (hs.made w hw _ (w.uses_subset (w.counts_subset hc)))
  have hzero : counting m.sessions m.made = 0 := countP_eq_zero.mpr fun w hw => by simpa using hnone w hw
  refine ⟨⟨hs.proper, fun w hw c hc => Nat.lt_succ_of_lt (hs.made w hw c hc), ?_, fun c hc => ?_, hs.limit⟩,
    rfl, Nat.lt_succ_self _, by simp, fun hlimit => by simpa using hlimit⟩
  · refine (forall_update_iff m.clients (Serves m.sessions (m.closed = false))).mpr
      ⟨⟨?_, nofun, nofun, nofun⟩, fun c' _ => hs.serves c'⟩
    exact Int.le_of_eq (congrArg _ hzero)
  · rcases mem_append.mp hc with hc | hc
    · simpa [Nat.ne_of_lt (hr.pool c hc)] using hs.pool c hc
    · rw [mem_singleton.mp hc]
      simp

theorem Mux.hand (hs : Mux o m) (c : Nat) : Mux o (m.hand c) := hs.update ((hs.serves c).frame rfl rfl rfl) rfl

theorem Mux.get (hs : Mux o m) (hr : Reused o m)
    (h : m.closed = false → ∀ c ∈ m.xmuxClients, (m.clients c).usedUp m.now = true →
      ∀ w ∈ m.sessions, c ∈ w.uses → c ∈ w.counts)
    (hget : m.getXmuxClient o d = some (m', c)) : Got o m.sessions m' c := by
  have hevict := hs.evict h
  rcases getXmuxClient_cases hget with hget | ⟨hmem, rfl⟩
  · exact hevict.newXmuxClient hr.evict hget
  · have hpool := mem_of_mem_candidates hmem
    refine ⟨hevict.hand c, rfl, hr.evict.pool c hpool, by simpa [XmuxManager.hand] using hevict.pool c hpool,
      fun hlimit => ?_⟩
    rw [XmuxManager.candidates, if_pos hlimit] at hmem
    simpa [XmuxManager.hand] using (mem_filter.mp hmem).2

/-- With one session that is not counted, a client serves no more than one above its counter. -/
theorem serving_set_le (hi : m.sessions[i]? = some w) (w' : Session)
    (hothers : ∀ j v, m.sessions[j]? = some v → j ≠ i → c ∈ v.uses → c ∈ v.counts) :
    serving (m.sessions.set i w') c ≤ counting m.sessions c + 1 := by
  let idle : Session := { w' with stage := .over }
  have hidle : idle.uses = [] ∧ idle.counts = [] := ⟨rfl, rfl⟩
  obtain ⟨hlt, _⟩ := List.getElem?_eq_some_iff.mp hi
  have hi' : (m.sessions.set i idle)[i]? = some idle := List.getElem?_set_self hlt
  have hset : serving (m.sessions.set i w') c ≤ serving (m.sessions.set i idle) c + 1 := by
    have hcount := countP_set_add (p := fun w => decide (c ∈ w.uses)) hi' w'
    rw [set_set] at hcount
    unfold serving
    split at hcount <;> split at hcount <;> omega
  have hmono : serving (m.sessions.set i idle) c ≤ counting (m.sessions.set i idle) c := by
    refine countP_mono_left fun v hv huse => ?_
    obtain ⟨j, hj⟩ := mem_iff_getElem?.mp hv
    by_cases hji : i = j
    · subst hji
      cases hi'.symm.trans hj
      simp [hidle.1] at huse
    · rw [List.getElem?_set_ne hji] at hj
      exact decide_eq_true (hothers j v hj (Ne.symm hji) (of_decide_eq_true huse))
  have hcounting : counting (m.sessions.set i idle) c ≤ counting m.sessions c :=
    countP_set_le hi (by simp [hidle.2])
  omega

/-- A session takes a client of the pool that is not at its limit. -/
theorem Got.use (hgot : Got o sessions m c) (hi : sessions[i]? = some w) (hproper : w'.Proper)
    (hclients : ∀ c' ∈ w'.clients, c' = c ∨ c' ∈ w.clients) (huses : ∀ c' ∈ w'.uses, c' = c ∨ c' ∈ w.uses)
    (hcounts : w'.counts = w.counts)
    (hothers : 0 < o.concurrency → ∀ j v, sessions[j]? = some v → some i ≠ some j → c ∈ v.uses → c ∈ v.counts) :
    Mux o (m.setSession i w') := by
  have hs := hgot.mux
  rw [← hgot.sessions] at hi hothers
  refine hs.setSessions (fun v => mem_or_eq_of_mem_set) hproper (fun c' hc' => ?_)
    (fun c' => hs.counted_set hi c' fun hc' => hcounts ▸ hc') (fun hlimit c' => ?_) fun hopen c' huse => ?_
  · rcases hclients c' hc' with rfl | hc'
    · exact hgot.made
    · exact hs.made w (mem_of_getElem? hi) c' hc'
  · by_cases hc : c' = c
    · subst hc
      have hserving := serving_set_le hi w' fun j v hv hne => hothers hlimit j v hv (by simpa using Ne.symm hne)
      have hopen := hgot.few hlimit
      have := (hs.serves c').counted
      omega
    · have hle := countP_set_le (p := fun w => decide (c' ∈ w.uses)) hi (b := w')
        (by simpa using fun h => (huses c' h).resolve_left hc)
      exact Int.le_trans (Int.ofNat_le.mpr hle) (hs.limit hlimit c')
  · rcases huses c' huse with rfl | huse
    · have hclosed : (m.clients c').closed ≠ true := hgot.inPool ▸ Bool.false_ne_true
      exact ⟨fun hc => absurd hc hclosed, eq_false_of_ne_true fun hc => hclosed ((hs.serves c').conn hc)⟩
    · rw [hcounts]
      exact hs.uses_counted hi hopen huse

theorem Mux.append (hs : Mux o m) (hover : w.stage = .over) (hmade : ∀ c ∈ w.clients, c < m.made) :
    Mux o { m with sessions := m.sessions ++ [w] } := by
  have huses : w.uses = [] := by simp [uses, hover]
  have hcounts : w.counts = [] := by simp [counts, hover]
  refine hs.setSessions (w := w) (by simp) ⟨by simp [hover], by simp [hover]⟩ hmade (fun c => ?_) (fun hlimit c => ?_)
    fun _ c huse => ?_
  · simpa [counting, countP_append, hcounts] using (hs.serves c).counted
  · simpa [serving, countP_append, huses] using hs.limit hlimit c
  · simp [huses] at huse

theorem othersCounted_iff {own : Option Nat} : m.othersCounted own c = true ↔
    ∀ j v, m.sessions[j]? = some v → own ≠ some j → c ∈ v.uses → c ∈ v.counts := by
  simp only [XmuxManager.othersCounted, all_eq_true, Prod.forall, mk_mem_zipIdx_iff_getElem?, Bool.or_eq_true,
    beq_iff_eq, Bool.not_eq_true', decide_eq_false_iff_not, decide_eq_true_eq]
  rw [forall_comm]
  refine forall₂_congr fun j v => imp_congr_right fun _ => ?_
  rw [or_assoc, or_iff_not_imp_left, ← imp_iff_not_or]

theorem Mux.steady_get (hs : Mux o m) (hr : Reused o m) (hl : m.steady o l = true) (hd : l.draw = some d)
    (hget : m.getXmuxClient o d = some (m', c)) : Got o m.sessions m' c ∧ (0 < o.concurrency →
      ∀ j v, m.sessions[j]? = some v → l.session ≠ some j → c ∈ v.uses → c ∈ v.counts) := by
  simp only [XmuxManager.steady, hd, Option.bind_some, hget, Bool.and_eq_true, all_eq_true, Bool.or_eq_true,
    Bool.not_eq_true', decide_eq_true_eq] at hl
  obtain ⟨hevicted, hreturned⟩ := hl
  refine ⟨hs.get hr (fun _ c hc hused w hw => ?_) hget, fun hlimit => ?_⟩
  · obtain ⟨j, hj⟩ := mem_iff_getElem?.mp hw
    rcases hevicted c hc with hfresh | hcounted
    · rw [hused] at hfresh
      cases hfresh
    · exact othersCounted_iff.mp hcounted j w hj (by simp)
  · rcases hreturned with hnone | hcounted
    · omega
    · exact othersCounted_iff.mp hcounted

theorem Mux.sessionStep (hs : Mux o m) (hr : Reused o m) (hi : m.sessions[i]? = some w) (hl : m.steady o l = true)
    (hsession : l.session = some i) (h : m.sessionStep o i w l = some m') : Mux o m' := by
  have hproper := hs.proper w (mem_of_getElem? hi)
  cases l with
  | dialDownload j d =>
    obtain ⟨⟨hstage, _⟩, h⟩ := Option.ite_none_right_eq_some.mp h
    obtain ⟨⟨m₁, c⟩, hget, rfl⟩ := Option.map_eq_some_iff.mp h
    obtain ⟨hgot, hothers⟩ := hs.steady_get hr hl rfl hget
    have hearly := hproper.early (.inl hstage)
    refine hgot.use hi ⟨by simp, fun _ => hearly⟩ ?_ ?_ ?_ (hsession ▸ hothers)
    · simp only [clients, mem_cons]
      tauto
    · simp only [uses, hstage, mem_cons, not_mem_nil, or_false]
      tauto
    · simp [counts, hstage]
  | count j =>
    obtain ⟨hstage, ⟨⟩⟩ := Option.ite_none_right_eq_some.mp h
    obtain ⟨hdue, hswitched⟩ := hproper.early (by tauto)
    obtain ⟨hcounts, huses⟩ : w.counts = [] ∧ ∀ c, c = w.upload ∨ c = w.download → c ∈ w.uses := by
      rcases hstage with hstage | ⟨hstage, _⟩
      · simp [counts, uses, hstage]
      · simp [counts, uses, hstage, hproper.got hstage]
    by_cases hsame : w.upload = w.download
    · rw [if_pos hsame]
      refine hs.count hi ⟨⟨by simp, by simp⟩, rfl, fun c hc => huses c ?_, by simp [hcounts]⟩
        (by simp [counts, ← hsame])
      simpa [uses, hswitched] using hc
    · rw [if_neg hsame]
      refine hs.count hi ⟨⟨by simp, fun _ => ⟨hdue, hswitched⟩⟩, rfl, fun c hc => huses c ?_, by simp [hcounts]⟩
        (by simp [counts])
      simpa [uses] using hc
  | countDownload j =>
    obtain ⟨hstage, ⟨⟩⟩ := Option.ite_none_right_eq_some.mp h
    have hearly := hproper.early (.inr (.inr hstage))
    refine hs.count hi ⟨⟨by simp, by simp⟩, rfl, ?_, ?_⟩ ?_
    · simp [uses, hstage, hearly.2]
    · simp only [counts, hstage, mem_cons, not_mem_nil, or_false]
      tauto
    · simp [counts, hstage]
  | request j download =>
    obtain ⟨_, ⟨⟩⟩ := Option.ite_none_right_eq_some.mp h
    exact hs.addRequests _
  | post j =>
    obtain ⟨⟨hstage, _⟩, ⟨⟩⟩ := Option.ite_none_right_eq_some.mp h
    have hs' := hs.addRequests w.dynamic
    refine hs'.setSession hi ⟨⟨hproper.got, fun hearly => ?_⟩, rfl, fun _ h => h, fun _ _ h => h⟩
      fun c => hs'.counted_set hi c id
    rcases hstage with hstage | hstage | hstage <;> simp [hstage] at hearly
  | switch j d =>
    obtain ⟨hdue, h⟩ := Option.ite_none_right_eq_some.mp h
    obtain ⟨⟨m₁, c⟩, hget, rfl⟩ := Option.map_eq_some_iff.mp h
    obtain ⟨hgot, hothers⟩ := hs.steady_get hr hl rfl hget
    have hlate : ¬ (w.stage = .got ∨ w.stage = .gotBoth ∨ w.stage = .counted) := by
      intro hearly
      rw [(hproper.early hearly).1] at hdue
      cases hdue
    refine hgot.use hi ⟨hproper.got, fun hearly => absurd hearly hlate⟩ ?_ ?_ rfl (hsession ▸ hothers)
    · simp only [clients, mem_cons]
      tauto
    · intro c'
      simp only [uses]
      cases hstage : w.stage <;> simp [hstage] at hlate ⊢ <;> tauto
  | close j =>
    obtain ⟨hstage, ⟨⟩⟩ := Option.ite_none_right_eq_some.mp h
    by_cases hsame : w.upload = w.download
    · rw [if_pos hsame]
      exact hs.uncount hi ⟨⟨by simp, by simp⟩, rfl, by simp [uses], by simp [uses]⟩
        (by simp [counts]) (by simp [counts, hstage]) (by simp [counts])
    · rw [if_neg hsame]
      exact hs.uncount hi ⟨⟨by simp, by simp⟩, rfl, by simp [uses, hstage],
        by simp [uses, counts]⟩ (by simp [counts, hstage]) (by simp [counts, hstage])
        (by simp [counts, hsame])
  | closeDownload j =>
    obtain ⟨hstage, ⟨⟩⟩ := Option.ite_none_right_eq_some.mp h
    exact hs.uncount hi ⟨⟨by simp, by simp⟩, rfl, by simp [uses], by simp [uses]⟩
      (by simp [counts]) (by simp [counts, hstage]) (by simp [counts])
  | abandon j =>
    obtain ⟨_, ⟨⟩⟩ := Option.ite_none_right_eq_some.mp h
    exact hs.setSession hi ⟨⟨by simp, by simp⟩, rfl, by simp [uses], by simp [uses]⟩
      fun c => hs.counted_set hi c (by simp [counts])
  | _ => cases h

/-! ### Runs -/

inductive Stepped (o : XmuxOptions) (m : XmuxManager) : XmuxLabel → XmuxManager → Prop
  | dial (oneLeg : Bool) (d : Draw) (m₁ : XmuxManager) (c : Nat) (h : m.getXmuxClient o d = some (m₁, c)) :
      Stepped o m (.dial oneLeg d) { m₁ with sessions := m₁.sessions ++ [⟨oneLeg, c, c, .got, c, false, []⟩] }
  | session (l : XmuxLabel) (i : Nat) (w : Session) (m' : XmuxManager) (hl : l.session = some i)
      (hi : m.sessions[i]? = some w) (h : m.sessionStep o i w l = some m') : Stepped o m l m'
  | fail (c : Nat) :
      Stepped o m (.fail c) { m with clients := update m.clients c { m.clients c with failed := true } }
  | tick (seconds : Nat) : Stepped o m (.tick seconds) { m with now := m.now + seconds }
  | closeManager : Stepped o m .closeManager { m with
      clients := fun c => if c ∈ m.xmuxClients then (m.clients c).close else m.clients c
      xmuxClients := []
      closed := true }

theorem XmuxManager.stepped (h : m.step o l = some m') : Stepped o m l m' := by
  have hsession : ∀ i, l.session = some i →
      (l.session.bind fun i => m.sessions[i]?.bind fun w => m.sessionStep o i w l) = some m' → Stepped o m l m' := by
    intro i hl h
    rw [hl, Option.bind_some] at h
    obtain ⟨w, hi, h⟩ := Option.bind_eq_some_iff.mp h
    exact .session l i w m' hl hi h
  cases l with
  | dial oneLeg d =>
    obtain ⟨⟨m₁, c⟩, hget, rfl⟩ := Option.map_eq_some_iff.mp h
    exact .dial oneLeg d m₁ c hget
  | fail c =>
    cases Option.some.inj h
    exact .fail c
  | tick seconds =>
    cases Option.some.inj h
    exact .tick seconds
  | closeManager =>
    cases Option.some.inj h
    exact .closeManager
  | _ => exact hsession _ rfl h

theorem Reused.setSession (hr : Reused o m) : Reused o (m.setSession i w) := ⟨hr.pool, hr.draws, hr.reuse⟩

theorem Reused.sessionStep (hr : Reused o m) (h : m.sessionStep o i w l = some m') : Reused o m' := by
  cases l with
  | dial | fail | tick | closeManager => cases h
  | dialDownload | switch =>
    obtain ⟨⟨m₁, c⟩, hget, rfl⟩ := Option.map_eq_some_iff.mp (Option.ite_none_right_eq_some.mp h).2
    exact (hr.get hget).setSession
  | abandon j =>
    cases Option.some.inj (Option.ite_none_right_eq_some.mp h).2
    exact hr.setSession
  | _ =>
    -- only counters of a client change, and the session
    cases Option.some.inj (Option.ite_none_right_eq_some.mp h).2
    exact hr.update ⟨rfl, rfl, rfl⟩

theorem Reused.step (hr : Reused o m) (h : m.step o l = some m') : Reused o m' := by
  cases XmuxManager.stepped h with
  | dial oneLeg d m₁ c hget =>
    have hr₁ := hr.get hget
    exact ⟨hr₁.pool, hr₁.draws, hr₁.reuse⟩
  | session _ i w _ hl hi h => exact hr.sessionStep h
  | fail c => exact hr.update ⟨rfl, rfl, rfl⟩
  | tick seconds => exact ⟨hr.pool, hr.draws, hr.reuse⟩
  | closeManager =>
    refine hr.frame (by simp) fun c => ?_
    split <;> exact ⟨rfl, rfl, rfl⟩

theorem Mux.step (hs : Mux o m) (hr : Reused o m) (hl : m.steady o l = true) (h : m.step o l = some m') :
    Mux o m' := by
  cases XmuxManager.stepped h with
  | dial oneLeg d m₁ c hget =>
    obtain ⟨hgot, hothers⟩ := hs.steady_get hr hl rfl hget
    -- the new session is added as one that is over, and then takes its client
    let w : Session := ⟨oneLeg, c, c, .over, c, false, []⟩
    have happended := hgot.mux.append (w := w) rfl (by simpa [clients, w] using hgot.made)
    have hi : (m₁.sessions ++ [w])[m₁.sessions.length]? = some w := List.getElem?_concat_length
    have hgot' : Got o (m₁.sessions ++ [w]) { m₁ with sessions := m₁.sessions ++ [w] } c :=
      ⟨happended, rfl, hgot.made, hgot.inPool, hgot.few⟩
    have hproper : Session.Proper { w with stage := .got } := ⟨fun _ => rfl, fun _ => ⟨rfl, rfl⟩⟩
    have hused := hgot'.use hi hproper (fun _ h => .inr h) (by simp [uses, w]) rfl fun hlimit j v hv hne => by
      rcases of_getElem?_snoc hv with hv | ⟨rfl, _⟩
      · exact hothers hlimit j v (hgot.sessions ▸ hv) nofun
      · exact absurd rfl hne
    have hset : (m₁.sessions ++ [w]).set m₁.sessions.length { w with stage := .got } =
        m₁.sessions ++ [⟨oneLeg, c, c, .got, c, false, []⟩] := by
      rw [set_append_right _ _ (Nat.le_refl _)]
      simp [w]
    simp only [XmuxManager.setSession, hset] at hused
    exact hused
  | session _ i w _ hsession hi h => exact hs.sessionStep hr hi hl hsession h
  | fail c => exact hs.update ((hs.serves c).frame rfl rfl rfl) rfl
  | tick seconds => exact ⟨hs.proper, hs.made, hs.serves, hs.pool, hs.limit⟩
  | closeManager =>
    refine ⟨hs.proper, hs.made, fun c => ⟨?_, fun hc => ?_, nofun, nofun⟩, nofun, hs.limit⟩
    · have := (hs.serves c).counted
      dsimp only
      split <;> exact this
    · dsimp only at hc ⊢
      split at hc
      next hp => simp [hp, XmuxClient.close]
      next hp => simpa [hp] using (hs.serves c).conn hc

variable {past : List (XmuxManager × XmuxLabel)}

theorem reused_run (hrun : (xmux o).Run past m) : Reused o m := by
  refine hrun.always ?_ fun m m' l hr h => hr.step h
  rintro m rfl
  exact ⟨by simp, by simp, by simp⟩

theorem mux_run (hrun : (xmux o).Run past m) (hal : System.Along (fun m l => m.steady o l = true) past) :
    Mux o m := by
  induction hrun with
  | start m h =>
    cases h
    exact ⟨nofun, nofun, fun c => ⟨by simp [counting, noClient], nofun, nofun, nofun⟩, nofun,
      fun h => by simp [serving]; omega⟩
  | next past m m' l hrun h ih =>
    obtain ⟨hl, hpast⟩ := (System.along_cons _ m l past).mp hal
    exact (ih hpast).step (reused_run hrun) hl h

/-- A client is returned no more often than it may be reused. In a steady run no session uses a client
whose connection was closed, until the manager is, and no client serves more sessions than the limit. -/
theorem clients_in_use_stay {past : List (XmuxManager × XmuxLabel)} (hrun : (xmux o).Run past m) :
    (∀ c < m.made, o.cMaxReuseTimes.draws (m.clients c).reuseTimes ∧
      (0 < (m.clients c).reuseTimes → (m.clients c).handed ≤ (m.clients c).reuseTimes)) ∧
      (System.Along (fun m l => m.steady o l = true) past →
        (m.closed = false → ∀ w ∈ m.sessions, ∀ c ∈ w.uses, (m.clients c).conn = false) ∧
        (0 < o.concurrency → ∀ c, (serving m.sessions c : Int) ≤ o.concurrency)) := by
  refine ⟨fun c hc => ⟨(reused_run hrun).draws c hc, fun hlimit => ?_⟩, fun hal => ?_⟩
  · have := (reused_run hrun).reuse c hc hlimit
    omega
  · have hs := mux_run hrun hal
    refine ⟨fun hopen w hw c hc => ?_, hs.limit⟩
    exact eq_false_of_ne_true fun hconn => (hs.serves c).open_ hopen hconn w hw hc

/-- A limit of one use, or of one session, on each client. -/
def onceEach (reuse concurrency : Int) : XmuxOptions := ⟨⟨reuse, reuse⟩, ⟨0, 0⟩, ⟨0, 0⟩, concurrency, 0⟩

/-- The first client that may be returned, or a new one. -/
def firstOf (reuse : Int) : Draw := ⟨0, reuse, 0, 0⟩

def emptyMux : XmuxManager := ⟨fun _ => noClient, 0, [], [], 0, false⟩

theorem mux_exec {ls : List XmuxLabel} (h : (xmux o).exec ls emptyMux = some m) :
    (xmux o).Run ((xmux o).trace ls emptyMux []) m := System.run_exec (.start _ rfl) h

/-- Two sessions of one leg, the second of which dials when the first is counted. -/
def oneAfterOther (reuse : Int) : List XmuxLabel :=
  [.dial true (firstOf reuse), .count 0, .dial true (firstOf reuse), .count 1]

theorem clients_in_use_stay_oneAfterOther :
    ∃ m, (xmux (onceEach 1 1)).exec (oneAfterOther 1) emptyMux = some m ∧ m.made = 2 ∧
      (∀ c < 2, (m.clients c).handed ≤ 1) ∧ (∀ w ∈ m.sessions, ∀ c ∈ w.uses, (m.clients c).conn = false) ∧
      ∀ c, (serving m.sessions c : Int) ≤ 1 := by
  let m := ((xmux (onceEach 1 1)).exec (oneAfterOther 1) emptyMux).get (by decide +kernel)
  have hm : (xmux (onceEach 1 1)).exec (oneAfterOther 1) emptyMux = some m := (Option.some_get _).symm
  obtain ⟨hreuse, hsteady⟩ := clients_in_use_stay (mux_exec hm)
  obtain ⟨hopen, hlimit⟩ := hsteady (System.along_exec (by decide +kernel))
  have hmade : m.made = 2 := by decide +kernel
  refine ⟨m, hm, hmade, fun c hc => ?_, hopen (by decide +kernel), hlimit (by decide)⟩
  obtain ⟨hdrawn, hbound⟩ := hreuse c (hmade ▸ hc)
  have hone : (m.clients c).reuseTimes = 1 := hdrawn
  exact hone ▸ hbound (hone ▸ Int.one_pos)

/-- With clients that are used once, the second leg of a session closes the client of its first one
before the session is counted on it. With clients for one session, two sessions that dial at the same
time are given the same one. -/
theorem client_is_closed_in_use :
    (∃ past m w, (xmux (onceEach 1 0)).Run past m ∧ m.closed = false ∧ w ∈ m.sessions ∧ 0 ∈ w.uses ∧
      (m.clients 0).conn = true) ∧
    ∃ past m, (xmux (onceEach 0 1)).Run past m ∧ serving m.sessions 0 = 2 := by
  let m := ((xmux (onceEach 1 0)).exec [.dial false (firstOf 1), .dialDownload 0 (firstOf 1)] emptyMux).get
    (by decide +kernel)
  have hm := mux_exec (m := m) (Option.some_get _).symm
  let m' := ((xmux (onceEach 0 1)).exec [.dial true (firstOf 0), .dial true (firstOf 0), .count 0, .count 1]
    emptyMux).get (by decide +kernel)
  have hm' := mux_exec (m := m') (Option.some_get _).symm
  exact ⟨⟨_, m, ⟨false, 0, 1, .gotBoth, 0, false, []⟩, hm, by decide +kernel, by decide +kernel, by decide +kernel,
    by decide +kernel⟩, _, m', hm', by decide +kernel⟩

end SingBox.XHTTP
