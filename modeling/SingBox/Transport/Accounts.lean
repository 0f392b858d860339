import SingBox.Transport.ConnPool
import SingBox.Lib.Count
import SingBox.Lib.Fold

/-!
# The accounts of the shared connection pool

The counters of every state are those of the callers: who waits in it, and who holds the connection
of the current one. States that `Reset` left behind keep losing waiters and never get a connection.
-/
namespace SingBox.ConnPool

open Lib List Option

namespace Caller

def waitsOn (i : Nat) : Caller → Bool
  | .waiting j _ _ => j == i
  | _ => false

/-- The caller has acquired the connection and not released it. -/
def holds (conn : Nat) : Caller → Bool
  | .acquired other _ => other == conn
  | _ => false

def got (conn : Nat) : Caller → Bool
  | .acquired other _ | .released other _ => other == conn
  | _ => false

/-- The caller was told that it created the connection. -/
def toldCreated (conn : Nat) : Caller → Bool
  | .acquired other created | .released other created => other == conn && created
  | _ => false

theorem got_of_holds {conn : Nat} {caller : Caller} (h : caller.holds conn = true) : caller.got conn = true := by
  cases caller <;> simp_all [holds, got]

end Caller

open Caller

/-- What the state at `i` of a pool is at any time. -/
structure PoolState.Wf (conns : Nat) (callers : List Caller) (i : Nat) (st : PoolState) : Prop where
  all_eq : st.all = st.shared.toList
  dialing : st.connecting.isSome → st.shared = none
  unclaimed : st.shared = none → st.sharedClaimed = false ∧ st.sharedUsers = 0
  bound : ∀ conn, st.shared = some conn → conn < conns
  waiters : st.sharedWaiters = callers.countP (waitsOn i)

/-- The counters of a state with a connection are those of the callers. -/
structure PoolState.Used (callers : List Caller) (conn : Nat) (st : PoolState) : Prop where
  users : st.sharedUsers = callers.countP (holds conn)
  claimed : st.sharedClaimed = true ↔ 0 < callers.countP (got conn)

/-- The state behind `removeConn`, when the connection is the one it tracks. -/
def PoolState.emptied (st : PoolState) : PoolState :=
  { st with all := [], shared := none, sharedClaimed := false, sharedUsers := 0 }

theorem PoolState.Wf.emptied {conns : Nat} {callers : List Caller} {i : Nat} {st : PoolState}
    (h : st.Wf conns callers i) : st.emptied.Wf conns callers i :=
  ⟨rfl, fun _ => rfl, fun _ => ⟨rfl, rfl⟩, nofun, h.waiters⟩

namespace Pool

variable {p p' : Pool} {callers : List Caller} {caller : Caller}

/-- Who was told what about the connections there are. -/
structure Told (conns : Nat) (callers : List Caller) : Prop where
  unmade : ∀ conn, conns ≤ conn → callers.countP (got conn) = 0
  created : ∀ conn, callers.countP (toldCreated conn) = if callers.countP (got conn) = 0 then 0 else 1

/-- The states, with their counters, and the callers. -/
structure Balanced (p : Pool) : Prop where
  current : p.current < p.states.length
  states : ∀ (i : Nat) (st : PoolState), p.states[i]? = some st → st.Wf p.conns.length p.callers i
  later : ∀ i, p.states.length ≤ i → p.callers.countP (waitsOn i) = 0
  used : ∀ (st : PoolState) (conn : Nat), p.states[p.current]? = some st → p.closed = false → st.shared = some conn →
    st.Used p.callers conn
  told : Told p.conns.length p.callers

/-- A dial that runs is the one its state waits for. -/
def Dials (states : List PoolState) (connects : List Connect) : Prop :=
  ∀ k i : Nat, connects[k]? = some ⟨i, none⟩ → ∃ st, states[i]? = some st ∧ st.connecting = some k

/-- A connection that is not closed is that of the current state. -/
def Tracks (p : Pool) : Prop :=
  ∀ conn : Nat, p.conns[conn]? = some false → p.closed = false ∧
    ∃ st, p.states[p.current]? = some st ∧ conn ∈ st.all

structure Sound (p : Pool) : Prop extends p.Balanced where
  dials : Dials p.states p.connects
  tracks : p.Tracks

/-- Nobody gets a connection or gives one back. -/
structure SameUse (callers callers' : List Caller) : Prop where
  got : ∀ conn, callers'.countP (got conn) = callers.countP (got conn)
  holds : ∀ conn, callers'.countP (holds conn) = callers.countP (holds conn)
  toldCreated : ∀ conn, callers'.countP (toldCreated conn) = callers.countP (toldCreated conn)

section
variable {callers callers' : List Caller} {conns : Nat}

theorem Told.of_eq (h : Told conns callers)
    (hgot : ∀ conn, callers'.countP (got conn) = callers.countP (got conn))
    (htold : ∀ conn, callers'.countP (toldCreated conn) = callers.countP (toldCreated conn)) :
    Told conns callers' := by
  refine ⟨fun conn hconn => (hgot conn).trans (h.unmade conn hconn), fun conn => ?_⟩
  rw [htold, hgot]
  exact h.created conn

theorem SameUse.used (h : SameUse callers callers') {conn : Nat} {st : PoolState} (hu : st.Used callers conn) :
    st.Used callers' conn := by
  constructor
  · rw [h.holds]
    exact hu.users
  · rw [h.got]
    exact hu.claimed

/-- A caller that has no connection goes on without one. -/
theorem sameUse_set {c : Nat} (hc : callers[c]? = some caller) (next : Caller)
    (hnone : ∀ conn, caller.got conn = false) (hnext : ∀ conn, next.got conn = false) :
    SameUse callers (callers.set c next) := by
  have hholds : ∀ (caller : Caller) conn, caller.got conn = false → caller.holds conn = false ∧
      caller.toldCreated conn = false := by
    intro caller conn
    cases caller <;> simp_all [holds, got, toldCreated]
  refine ⟨fun conn => countP_set_eq hc ?_, fun conn => countP_set_eq hc ?_, fun conn => countP_set_eq hc ?_⟩
  · exact (hnext conn).trans (hnone conn).symm
  · exact (hholds next conn (hnext conn)).1.trans (hholds caller conn (hnone conn)).1.symm
  · exact (hholds next conn (hnext conn)).2.trans (hholds caller conn (hnone conn)).2.symm

end

/-- More connections are made, or some are closed. -/
theorem Balanced.conns (h : p.Balanced) {connects : List Connect} {conns : List Bool}
    (hlength : p.conns.length ≤ conns.length) : ({ p with connects, conns } : Pool).Balanced where
  current := h.current
  states i st hi :=
    { h.states i st hi with
      bound := fun conn hconn => Nat.lt_of_lt_of_le ((h.states i st hi).bound conn hconn) hlength }
  later := h.later
  used := h.used
  told := ⟨fun conn hconn => h.told.unmade conn (Nat.le_trans hlength hconn), h.told.created⟩

section
variable {i : Nat} {st st' : PoolState} (h : p.Balanced) (hst : p.states[i]? = some st)

include hst in
theorem getElem?_setState (j : Nat) : (p.setState i st').states[j]? = if i = j then some st' else p.states[j]? := by
  rw [setState, List.getElem?_set, if_pos (lt_of_getElem? hst)]

theorem current_setState (h : p.states[p.current]? = some st) :
    (p.setState p.current st').states[p.current]? = some st' := (getElem?_setState h _).trans (if_pos rfl)

section
include h hst

section
variable (hwf : st'.Wf p.conns.length callers i)
  (hwaits : ∀ j, j ≠ i → callers.countP (waitsOn j) = p.callers.countP (waitsOn j))
include hwf hwaits

theorem Balanced.set
    (hused : ∀ (st₀ : PoolState) (conn : Nat), (p.states.set i st')[p.current]? = some st₀ → p.closed = false →
      st₀.shared = some conn → st₀.Used callers conn) (htold : Told p.conns.length callers) :
    ({ p with states := p.states.set i st', callers } : Pool).Balanced := by
  have hlt := lt_of_getElem? hst
  refine ⟨by rw [length_set]; exact h.current, fun j st₀ hj => ?_, fun j hj => ?_, hused, htold⟩
  · rcases of_getElem?_set hj with ⟨rfl, rfl⟩ | ⟨hne, hj⟩
    · exact hwf
    · have hwf := h.states j st₀ hj
      exact { hwf with waiters := by rw [hwaits j (Ne.symm hne)]; exact hwf.waiters }
  · rw [length_set] at hj
    rw [hwaits j (by omega)]
    exact h.later j hj

/-- A state changes, and keeps its connection as it is or loses it. -/
theorem Balanced.keep (hsame : SameUse p.callers callers)
    (hkeep : ∀ conn, st'.shared = some conn → st.shared = some conn ∧ st'.sharedUsers = st.sharedUsers ∧
      st'.sharedClaimed = st.sharedClaimed) : ({ p with states := p.states.set i st', callers } : Pool).Balanced := by
  refine h.set hst hwf hwaits (fun st₀ conn hj hclosed hconn => hsame.used ?_)
    (h.told.of_eq hsame.got hsame.toldCreated)
  rcases of_getElem?_set hj with ⟨rfl, rfl⟩ | ⟨-, hj⟩
  · obtain ⟨hconn, hu, hc⟩ := hkeep conn hconn
    have hbefore := h.used st conn hst hclosed hconn
    exact ⟨hu.trans hbefore.users, by rw [hc]; exact hbefore.claimed⟩
  · exact h.used st₀ conn hj hclosed hconn

end

theorem Balanced.setState (st' : PoolState) (hwf : st'.Wf p.conns.length p.callers i)
    (hkeep : ∀ conn, st'.shared = some conn → st.shared = some conn ∧ st'.sharedUsers = st.sharedUsers ∧
      st'.sharedClaimed = st.sharedClaimed) : (p.setState i st').Balanced :=
  h.keep hst hwf (fun _ _ => rfl) ⟨fun _ => rfl, fun _ => rfl, fun _ => rfl⟩ hkeep

end

include hst

theorem Dials.setState (h : Dials p.states p.connects) (st' : PoolState)
    (hconnecting : st'.connecting = st.connecting) :
    Dials (p.states.set i st') p.connects := by
  intro k j hk
  obtain ⟨st₀, hj, hk⟩ := h k j hk
  change ∃ st, (p.setState i st').states[j]? = some st ∧ _
  rw [getElem?_setState hst]
  split
  next heq =>
    subst heq
    cases hst.symm.trans hj
    exact ⟨st', rfl, hconnecting.trans hk⟩
  · exact ⟨st₀, hj, hk⟩

theorem Tracks.setState (h : p.Tracks) (st' : PoolState) (hall : st.all ⊆ st'.all) : (p.setState i st').Tracks := by
  intro conn hconn
  obtain ⟨hclosed, st₀, hst₀, hmem⟩ := h conn hconn
  refine ⟨hclosed, ?_⟩
  show ∃ st₁, (p.setState i st').states[p.current]? = some st₁ ∧ _
  rw [getElem?_setState hst]
  split
  next heq =>
    subst heq
    cases hst.symm.trans hst₀
    exact ⟨st', rfl, hall hmem⟩
  · exact ⟨st₀, hst₀, hmem⟩

end

variable {c conn i : Nat} {st : PoolState}

section
variable (hst : p.states[p.current]? = some st)
include hst

/-- A caller gets the connection, the first one as its creator. -/
theorem Balanced.claim (h : p.Balanced) (hclosed : p.closed = false) (hc : p.callers[c]? = some .acquiring)
    (hconn : st.shared = some conn) : (p.claim p.current st c conn).Balanced := by
  have hwf := h.states p.current st hst
  have hbefore := h.used st conn hst hclosed hconn
  set next : Caller := .acquired conn !st.sharedClaimed
  have hcount : ∀ q : Caller → Bool, (p.callers.set c next).countP q + (if q .acquiring then 1 else 0) =
      p.callers.countP q + if q next then 1 else 0 := fun _ => countP_set_add hc _
  have hgot : ∀ other, (p.callers.set c next).countP (got other) =
      p.callers.countP (got other) + if conn = other then 1 else 0 :=
    fun other => by simpa [got, next] using hcount (got other)
  have hholds : ∀ other, (p.callers.set c next).countP (holds other) =
      p.callers.countP (holds other) + if conn = other then 1 else 0 :=
    fun other => by simpa [holds, next] using hcount (holds other)
  have htold : ∀ other, (p.callers.set c next).countP (toldCreated other) =
      p.callers.countP (toldCreated other) + if conn = other ∧ st.sharedClaimed = false then 1 else 0 :=
    fun other => by simpa [toldCreated, next] using hcount (toldCreated other)
  have hwaits : ∀ j, (p.callers.set c next).countP (waitsOn j) = p.callers.countP (waitsOn j) :=
    fun _ => countP_set_eq hc rfl
  change ({ p with states := p.states.set _ _, callers := p.callers.set c next } : Pool).Balanced
  refine h.set hst
    { hwf with
      unclaimed := fun hnone => absurd (hconn.symm.trans hnone) nofun
      waiters := by rw [hwaits]; exact hwf.waiters } (fun j _ => hwaits j)
    (fun st₀ other hj _ hother => ?_) ⟨fun other hother => ?_, fun other => ?_⟩
  · cases (current_setState hst).symm.trans hj
    cases hconn.symm.trans hother
    constructor
    · rw [hholds, if_pos rfl, hbefore.users]
      rfl
    · rw [hgot, if_pos rfl]
      simp
  · have hne : conn ≠ other := by
      rintro rfl
      exact absurd (hwf.bound conn hconn) (Nat.not_lt.mpr hother)
    rw [hgot, if_neg hne]
    exact h.told.unmade other hother
  · rw [htold, hgot, h.told.created]
    by_cases heq : conn = other
    · subst heq
      cases hb : st.sharedClaimed with
      | true =>
        have hpos := hbefore.claimed.mp hb
        simp [Nat.pos_iff_ne_zero.mp hpos]
      | false =>
        have hzero : p.callers.countP (got conn) = 0 := by
          by_contra hne
          have := hbefore.claimed.mpr (Nat.pos_of_ne_zero hne)
          rw [hb] at this
          cases this
        simp [hzero]
    · simp [heq]

/-- A connection is given back, and the current state with it if it has that connection. -/
theorem Balanced.released (h : p.Balanced) {created : Bool} (hc : p.callers[c]? = some (.acquired conn created))
    (st' : PoolState) (hwf : st'.Wf p.conns.length p.callers p.current)
    (hshared : ∀ other, st'.shared = some other → st.shared = some other ∧ st'.sharedClaimed = st.sharedClaimed)
    (husers : ∀ other, p.closed = false → st'.shared = some other →
      st'.sharedUsers = st.sharedUsers - if conn = other then 1 else 0) :
    ((p.setCaller c (.released conn created)).setState p.current st').Balanced := by
  set next : Caller := .released conn created
  have hgot : ∀ other, (p.callers.set c next).countP (got other) = p.callers.countP (got other) :=
    fun _ => countP_set_eq hc rfl
  have hwaits : ∀ j, (p.callers.set c next).countP (waitsOn j) = p.callers.countP (waitsOn j) :=
    fun _ => countP_set_eq hc rfl
  have hholds : ∀ other, (p.callers.set c next).countP (holds other) + (if conn = other then 1 else 0) =
      p.callers.countP (holds other) := by
    intro other
    simpa [holds, next] using countP_set_add (p := holds other) hc next
  change ({ p with states := p.states.set _ _, callers := p.callers.set c next } : Pool).Balanced
  refine h.set hst { hwf with waiters := by rw [hwaits]; exact hwf.waiters } (fun j _ => hwaits j)
    (fun st₀ other hj hclosed hother => ?_) (h.told.of_eq hgot fun _ => countP_set_eq hc rfl)
  cases (current_setState hst).symm.trans hj
  obtain ⟨hbefore, hclaimed⟩ := hshared other hother
  have hused := h.used st other hst hclosed hbefore
  constructor
  · have hcount := hholds other
    rw [husers other hclosed hother, hused.users]
    split at hcount
    · rw [if_pos ‹_›]
      omega
    · rw [if_neg ‹_›]
      omega
  · rw [hclaimed, hgot]
    exact hused.claimed

end

theorem of_closeConn {other : Nat} (h : (p.closeConn conn).conns[other]? = some false) :
    other ≠ conn ∧ p.conns[other]? = some false := by
  rcases of_getElem?_set h with ⟨_, h⟩ | ⟨hne, h⟩
  · cases h
  · exact ⟨Ne.symm hne, h⟩

theorem Balanced.closeConn (h : p.Balanced) (conn : Nat) : (p.closeConn conn).Balanced :=
  h.conns (Nat.le_of_eq length_set.symm)

theorem Sound.closeConn (h : p.Sound) (conn : Nat) : (p.closeConn conn).Sound :=
  ⟨h.toBalanced.closeConn conn, h.dials, fun other hother => h.tracks other (of_closeConn hother).2⟩

theorem removeConn_eq {conns : Nat} (hwf : st.Wf conns callers i) (hconn : conn ∈ st.all) :
    st.shared = some conn ∧ st.all = [conn] ∧ p.removeConn i st conn = (p.setState i st.emptied).closeConn conn := by
  have hshared : st.shared = some conn := by
    rw [hwf.all_eq] at hconn
    exact mem_toList.mp hconn
  have hall : st.all = [conn] := by rw [hwf.all_eq, hshared]; rfl
  exact ⟨hshared, hall, by simp [removeConn, hshared, hall, PoolState.emptied]⟩

/-- Without its connection the current state tracks nothing, and nothing else is open. -/
theorem tracks_removeConn (h : p.Tracks) (hst : p.states[p.current]? = some st) (hall : st.all = [conn]) :
    ((p.setState p.current st.emptied).closeConn conn).Tracks := by
  intro other hother
  obtain ⟨hne, hother⟩ := of_closeConn hother
  obtain ⟨_, st₀, hst₀, hmem⟩ := h other hother
  cases hst.symm.trans hst₀
  rw [hall] at hmem
  exact absurd (mem_singleton.mp hmem) hne

/-- `CloseIdle` does nothing, or takes away a connection that nobody uses. -/
theorem closeIdle_cases (hs : p.closeIdle = some p') :
    p' = p ∨ ∃ st conn, p.states[p.current]? = some st ∧ p.closed = false ∧ st.shared = some conn ∧
      st.sharedUsers ≤ 0 ∧ p' = p.removeConn p.current st conn := by
  unfold closeIdle at hs
  split at hs
  next st hst =>
    split at hs
    · exact .inl (Option.some.inj hs).symm
    next hopen =>
      split at hs
      · exact .inl (Option.some.inj hs).symm
      next conn hconn =>
        split at hs
        · exact .inl (Option.some.inj hs).symm
        next hunused =>
          rw [not_or, Int.not_lt] at hunused
          exact .inr ⟨st, conn, hst, Bool.eq_false_iff.mpr hopen, hconn, hunused.1, (Option.some.inj hs).symm⟩
  · cases hs

section
variable (h : p.Sound)
include h

theorem Sound.removeConn (hst : p.states[p.current]? = some st) (hconn : conn ∈ st.all) :
    (p.removeConn p.current st conn).Sound := by
  have hwf := h.states p.current st hst
  obtain ⟨_, hall, heq⟩ := removeConn_eq (p := p) hwf hconn
  rw [heq]
  exact ⟨(h.setState hst _ hwf.emptied fun _ hnone => nomatch hnone).closeConn conn, h.dials.setState hst _ rfl,
    tracks_removeConn h.tracks hst hall⟩

/-- Who waits does not change, nor who has or had a connection. -/
theorem Sound.setCallers (hwaits : ∀ i, callers.countP (waitsOn i) = p.callers.countP (waitsOn i))
    (hsame : SameUse p.callers callers) : ({ p with callers } : Pool).Sound where
  current := h.current
  states i st hi :=
    { h.states i st hi with waiters := by rw [hwaits]; exact (h.states i st hi).waiters }
  later i hi := (hwaits i).trans (h.later i hi)
  used st conn hst hclosed hconn := hsame.used (h.used st conn hst hclosed hconn)
  told := h.told.of_eq hsame.got hsame.toldCreated
  dials := h.dials
  tracks := h.tracks

section
variable (hst : p.states[i]? = some st)
include hst

/-- A caller without a connection begins or ends to wait in a state. -/
theorem Sound.move (hc : p.callers[c]? = some caller) (w : Int) (next : Caller)
    (hbalance : w + (if caller.waitsOn i then 1 else 0) = st.sharedWaiters + if next.waitsOn i then 1 else 0)
    (hother : ∀ j, j ≠ i → next.waitsOn j = caller.waitsOn j) (hnone : ∀ conn, caller.got conn = false)
    (hnext : ∀ conn, next.got conn = false) :
    ((p.setState i { st with sharedWaiters := w }).setCaller c next).Sound := by
  have hwf := h.states i st hst
  have hwaiters : w = (p.callers.set c next).countP (waitsOn i) := by
    have hcount := countP_set_add (p := waitsOn i) hc next
    rw [hwf.waiters] at hbalance
    revert hbalance hcount
    cases caller.waitsOn i <;> cases next.waitsOn i <;>
      simp only [Bool.false_eq_true, if_false, if_true] <;> omega
  exact ⟨h.keep hst { hwf with waiters := hwaiters } (fun j hj => countP_set_eq hc (hother j hj))
      (sameUse_set hc next hnone hnext) fun _ hconn => ⟨hconn, rfl, rfl⟩,
    h.dials.setState hst _ rfl, h.tracks.setState hst _ (List.Subset.refl _)⟩

theorem Sound.wait {k : Nat} {startDial : Bool} (hc : p.callers[c]? = some .acquiring) :
    (p.wait i st c k startDial).Sound := by
  refine h.move hst hc _ _ ?_ (fun j hj => ?_) (fun _ => rfl) fun _ => rfl
  · simp [waitsOn]
  · simp [waitsOn, Ne.symm hj]

theorem Sound.leave {k : Nat} {startDial : Bool} {next : Caller} (hc : p.callers[c]? = some (.waiting i k startDial))
    (hnext : next = .failed ∨ next = .acquiring) :
    (p.leave i st c next).Sound := by
  have hwaits : ∀ j, next.waitsOn j = false := by
    rcases hnext with rfl | rfl <;> exact fun _ => rfl
  refine h.move hst hc _ _ ?_ (fun j hj => ?_) (fun _ => rfl) ?_
  · rw [hwaits]
    simp [waitsOn]
  · rw [hwaits]
    simp [waitsOn, Ne.symm hj]
  · rcases hnext with rfl | rfl <;> exact fun _ => rfl

/-- The goroutine that dials for a state is the only one. -/
theorem Sound.startDial (hshared : st.shared = none) (hidle : st.connecting = none) :
    (p.startDial i st).Sound := by
  have hb := h.setState hst { st with connecting := some p.connects.length }
    { h.states i st hst with dialing := fun _ => hshared } fun _ hconn => ⟨hconn, rfl, rfl⟩
  refine ⟨hb.conns (Nat.le_refl _), fun k j hk => ?_, h.tracks.setState hst _ (List.Subset.refl _)⟩
  change ∃ st₀, (p.setState i _).states[j]? = some st₀ ∧ _
  rw [getElem?_setState hst]
  rcases of_getElem?_snoc hk with hk | ⟨rfl, heq⟩
  · obtain ⟨st₀, hj, hk₀⟩ := h.dials k j hk
    have hne : i ≠ j := by
      rintro rfl
      cases hst.symm.trans hj
      rw [hidle] at hk₀
      cases hk₀
    exact ⟨st₀, by rw [if_neg hne]; exact hj, hk₀⟩
  · cases heq
    exact ⟨_, if_pos rfl, rfl⟩

end

/-- What `useShared` does when connections are alive. -/
theorem Sound.useShared (hst : p.states[p.current]? = some st) (hclosed : p.closed = false)
    (hc : p.callers[c]? = some .acquiring) (hconn : st.shared = some conn) :
    (p.useShared (fun _ => true) p.current st c conn).Sound :=
  ⟨h.toBalanced.claim hst hclosed hc hconn, h.dials.setState hst _ rfl, h.tracks.setState hst _ (List.Subset.refl _)⟩

theorem Sound.acquire (hs : p.acquire (fun _ => true) c = some p') : p'.Sound := by
  unfold Pool.acquire at hs
  split at hs
  next st hc hst =>
    split at hs
    · cases hs
      exact h.setCallers (fun _ => countP_set_eq hc rfl) (sameUse_set hc _ (fun _ => rfl) fun _ => rfl)
    next hclosed =>
      rw [Bool.not_eq_true] at hclosed
      split at hs
      next conn hconn =>
        cases hs
        exact h.useShared hst hclosed hc hconn
      next hnone =>
        split at hs
        · cases hs
          exact h.wait hst hc
        next hidle =>
          cases hs
          exact Sound.wait (h.startDial hst hnone hidle) (current_setState hst) hc
  · cases hs

theorem Sound.collect (hs : p.collect (fun _ => true) c = some p') : p'.Sound := by
  unfold Pool.collect at hs
  split at hs
  next i k startDial hc =>
    split at hs
    next st failed hst _ =>
      split at hs
      · cases hs
        refine h.leave hst hc ?_
        split
        · exact .inl rfl
        · exact .inr rfl
      · split at hs
        · cases hs
          exact h.leave hst hc (.inl rfl)
        next hcurrent =>
          simp only [Bool.or_eq_true, bne_iff_ne, not_or, Bool.not_eq_true, ne_eq, not_not] at hcurrent
          obtain ⟨hclosed, rfl⟩ := hcurrent
          have hleft : (p.leave p.current st c .acquiring).Sound := h.leave hst hc (.inr rfl)
          dsimp only at hs
          split at hs
          · cases hs
            exact hleft
          next conn hconn =>
            cases hs
            refine hleft.useShared (current_setState hst) hclosed ?_ hconn
            exact List.getElem?_set_self (lt_of_getElem? hc)
    · cases hs
  · cases hs

theorem Sound.cancel (hs : p.cancel c = some p') : p'.Sound := by
  unfold Pool.cancel at hs
  split at hs
  next hc =>
    split at hs
    next st hst =>
      cases hs
      exact h.leave hst hc (.inl rfl)
    · cases hs
  · cases hs

theorem Sound.wake (hs : p.wake c = some p') : p'.Sound := by
  unfold Pool.wake at hs
  split at hs
  next hc =>
    split at hs
    next st hst =>
      split at hs
      · cases hs
        refine h.leave hst hc ?_
        split
        · exact .inl rfl
        · exact .inr rfl
      · cases hs
    · cases hs
  · cases hs

theorem Sound.invalidate (hs : p.invalidate conn = some p') : p'.Sound := by
  unfold Pool.invalidate at hs
  split at hs
  next st hst =>
    split at hs
    · cases hs
      exact h.closeConn conn
    split at hs
    · cases hs
      exact h
    next htracked =>
      cases hs
      exact h.removeConn hst (not_not.mp htracked)
  · cases hs

theorem Sound.closeIdle (hs : p.closeIdle = some p') : p'.Sound := by
  rcases closeIdle_cases hs with rfl | ⟨st, conn, hst, _, hconn, _, rfl⟩
  · exact h
  · refine h.removeConn hst ?_
    rw [(h.states p.current st hst).all_eq, hconn]
    exact mem_singleton_self conn

end

section
variable {k i : Nat} {st : PoolState} (hk : p.connects[k]? = some ⟨i, none⟩) (hst : p.states[i]? = some st)
include hk hst

theorem Sound.connecting_eq (h : p.Sound) : st.connecting = some k := by
  obtain ⟨st₀, hst₀, hk₀⟩ := h.dials k i hk
  cases hst.symm.trans hst₀
  exact hk₀

theorem dials_done (h : p.Sound) (failed : Bool) (st' : PoolState) :
    Dials (p.states.set i st') (p.connects.set k ⟨i, some failed⟩) := by
  intro k' j hk'
  rcases of_getElem?_set hk' with ⟨_, hk'⟩ | ⟨hne, hk'⟩
  · cases hk'
  obtain ⟨st₀, hj, hk₀⟩ := h.dials k' j hk'
  have hij : i ≠ j := by
    rintro rfl
    cases hst.symm.trans hj
    exact hne (some.inj ((h.connecting_eq hk hst).symm.trans hk₀))
  exact ⟨st₀, ((getElem?_setState hst j).trans (if_neg hij)).trans hj, hk₀⟩

theorem Sound.dialFailed (h : p.Sound) {conns : List Bool} (hlength : p.conns.length ≤ conns.length)
    (hopen : ∀ conn : Nat, conns[conn]? = some false → p.conns[conn]? = some false) :
    ({ p.setState i { st with connecting := none } with
      connects := p.connects.set k ⟨i, some true⟩, conns := conns } : Pool).Sound := by
  have hb := h.setState hst { st with connecting := none } { h.states i st hst with dialing := nofun }
    fun _ hconn => ⟨hconn, rfl, rfl⟩
  have ht := h.tracks.setState hst { st with connecting := none } (List.Subset.refl _)
  exact ⟨hb.conns hlength, dials_done hk hst h true _, fun conn hconn => ht conn (hopen conn hconn)⟩

end

variable {st : PoolState}

/-- The connection that the dial of the current state returned. -/
theorem Sound.install (h : p.Sound) {k : Nat} (hk : p.connects[k]? = some ⟨p.current, none⟩)
    (hst : p.states[p.current]? = some st) (hclosed : p.closed = false) :
    ({ p.setState p.current
        { st with shared := some p.conns.length, all := p.conns.length :: st.all, connecting := none } with
      connects := p.connects.set k ⟨p.current, some false⟩, conns := p.conns ++ [false] } : Pool).Sound := by
  have hwf := h.states p.current st hst
  have hnone : st.shared = none := hwf.dialing (by rw [h.connecting_eq hk hst]; rfl)
  have hall : st.all = [] := by rw [hwf.all_eq, hnone]; rfl
  obtain ⟨hclaimed, husers⟩ := hwf.unclaimed hnone
  have hgot := h.told.unmade p.conns.length (Nat.le_refl _)
  have hholds : p.callers.countP (holds p.conns.length) = 0 := by
    rw [countP_eq_zero] at hgot ⊢
    exact fun caller hc hh => hgot caller hc (Caller.got_of_holds hh)
  have hmore : p.conns.length < (p.conns ++ [false]).length := by simp
  have hb : ({ p with
      connects := p.connects.set k ⟨p.current, some false⟩
      conns := p.conns ++ [false] } : Pool).Balanced :=
    h.conns (Nat.le_of_lt hmore)
  refine ⟨hb.set hst ⟨by rw [hall]; rfl, nofun, nofun, fun _ hconn => some.inj hconn ▸ hmore, hwf.waiters⟩
    (fun _ _ => rfl) (fun st₀ conn hj _ hconn => ?_) hb.told, dials_done hk hst h false _, fun conn hconn => ?_⟩
  · cases (current_setState hst).symm.trans hj
    cases hconn
    constructor
    · show st.sharedUsers = (p.callers.countP (holds p.conns.length) : Int)
      rw [hholds, husers]
      rfl
    · show st.sharedClaimed = true ↔ 0 < p.callers.countP (got p.conns.length)
      rw [hgot, hclaimed]
      simp
  · refine ⟨hclosed, _, current_setState hst, ?_⟩
    rcases of_getElem?_snoc hconn with hconn | ⟨rfl, _⟩
    · obtain ⟨_, st₀, hst₀, hmem⟩ := h.tracks conn hconn
      cases hst.symm.trans hst₀
      rw [hall] at hmem
      cases hmem
    · exact mem_cons_self

theorem Sound.dialed (h : p.Sound) {k : Nat} {result : Dialed} (hs : p.dialed k result = some p') : p'.Sound := by
  have hlate : ∀ conn : Nat, (p.conns ++ [true])[conn]? = some false → p.conns[conn]? = some false := by
    intro conn hconn
    rcases of_getElem?_snoc hconn with hconn | ⟨_, hconn⟩
    · exact hconn
    · cases hconn
  have hlength : p.conns.length ≤ (p.conns ++ [true]).length := by
    rw [length_append]
    exact Nat.le_add_right _ _
  unfold Pool.dialed at hs
  split at hs
  next i hk =>
    split at hs
    · cases hs
    next st hst =>
      cases result with
      | error =>
        cases hs
        exact h.dialFailed hk hst (Nat.le_refl _) fun _ hconn => hconn
      | late =>
        cases hs
        exact h.dialFailed hk hst hlength hlate
      | conn =>
        dsimp only at hs
        split at hs
        · cases hs
          exact h.dialFailed hk hst hlength hlate
        next hcurrent =>
          simp only [Bool.or_eq_true, bne_iff_ne, not_or, Bool.not_eq_true, ne_eq, not_not] at hcurrent
          obtain ⟨hclosed, rfl⟩ := hcurrent
          cases hs
          exact h.install hk hst hclosed
  · cases hs

theorem setState_self {i : Nat} (hst : p.states[i]? = some st) : p.setState i st = p := by
  have : p.states.set i st = p.states := by
    obtain ⟨hi, rfl⟩ := List.getElem?_eq_some_iff.mp hst
    exact set_getElem_self hi
  rw [setState, this]

theorem Sound.release (h : p.Sound) {c : Nat} {reuse : Bool} (hs : p.release (fun _ => true) c reuse = some p') :
    p'.Sound := by
  unfold Pool.release at hs
  split at hs
  next conn created st hc hst =>
    have hwf := h.states p.current st hst
    -- the connection is not the one that the pool tracks
    have hforeign : (p.closed = false → st.shared ≠ some conn) → (p.setCaller c (.released conn created)).Sound := by
      intro hne
      have hb := h.released hst hc st hwf (fun _ hother => ⟨hother, rfl⟩) fun other hclosed hother => by
        rw [if_neg, Int.sub_zero]
        rintro rfl
        exact hne hclosed hother
      rw [setState_self (p := p.setCaller c _) hst] at hb
      exact ⟨hb, h.dials, h.tracks⟩
    dsimp only at hs
    split at hs
    next hclosed =>
      cases hs
      exact (hforeign fun hopen => absurd (hclosed.symm.trans hopen) nofun).closeConn conn
    next hopen =>
      split at hs
      next huntracked =>
        cases hs
        refine (hforeign fun _ hshared => huntracked ?_).closeConn conn
        rw [hwf.all_eq, hshared]
        exact mem_singleton_self conn
      next htracked =>
        obtain ⟨hshared, hall, hgone⟩ :=
          removeConn_eq (p := p.setCaller c (.released conn created)) hwf (not_not.mp htracked)
        split at hs
        · cases hs
          rw [hgone]
          have hb := h.released hst hc st.emptied hwf.emptied (fun _ hnone => nomatch hnone)
            fun _ _ hnone => nomatch hnone
          exact ⟨hb.closeConn conn, h.dials.setState hst _ rfl,
            tracks_removeConn (p := p.setCaller c _) h.tracks hst hall⟩
        · split at hs
          · cases hs
            refine ⟨h.released hst hc _ { hwf with unclaimed := fun hnone => absurd (hshared.symm.trans hnone) nofun }
              (fun _ hother => ⟨hother, rfl⟩) fun other _ hother => ?_,
              h.dials.setState hst _ rfl, h.tracks.setState hst _ (List.Subset.refl _)⟩
            cases hshared.symm.trans hother
            rw [if_pos rfl]
          next hunused =>
            -- the caller itself is counted
            have husers := (h.used st conn hst (Bool.eq_false_iff.mpr hopen) hshared).users
            have hpos : 0 < p.callers.countP (holds conn) :=
              countP_pos_iff.mpr ⟨_, mem_of_getElem? hc, beq_self_eq_true conn⟩
            exact absurd ⟨hshared, by omega⟩ hunused
  · cases hs

/-- What is open once some connections were closed was open before, and is none of them. -/
theorem foldl_closeConn (all : List Nat) (q : Pool) :
    ∃ conns, conns.length = q.conns.length ∧
      (∀ conn : Nat, conns[conn]? = some false → q.conns[conn]? = some false ∧ conn ∉ all) ∧
      all.foldl (fun p conn => p.closeConn conn) q = { q with conns := conns } := by
  induction all generalizing q with
  | nil => exact ⟨q.conns, rfl, fun _ hopen => ⟨hopen, not_mem_nil⟩, rfl⟩
  | cons other all ih =>
    obtain ⟨conns, hlength, hopen, heq⟩ := ih (q.closeConn other)
    refine ⟨conns, hlength.trans length_set, fun conn hconn => ?_, heq⟩
    obtain ⟨hset, hnot⟩ := hopen conn hconn
    obtain ⟨hne, hbefore⟩ := of_closeConn hset
    exact ⟨hbefore, not_mem_cons_of_ne_of_not_mem hne hnot⟩

section
variable (h : p.Sound)
include h

/-- Behind `closeState` of the current state no connection is open, and the accounts are as before. -/
theorem Sound.closeState (hst : p.states[p.current]? = some st) {q : Pool}
    (hq : p.setState p.current { st with canceled := true } = q) :
    ∃ conns, (∀ conn : Nat, conns[conn]? ≠ some false) ∧ p.closeState p.current st = { q with conns } ∧
      ({ q with conns } : Pool).Balanced ∧ Dials q.states p.connects := by
  subst hq
  obtain ⟨conns, hlength, hopen, heq⟩ := foldl_closeConn st.all (p.setState p.current _)
  have hbalanced := h.setState hst { st with canceled := true } { h.states p.current st hst with } fun _ hconn =>
    ⟨hconn, rfl, rfl⟩
  refine ⟨conns, fun conn hconn => ?_, heq, hbalanced.conns (Nat.le_of_eq hlength.symm), h.dials.setState hst _ rfl⟩
  obtain ⟨hbefore, hnot⟩ := hopen conn hconn
  obtain ⟨_, st₀, hst₀, hmem⟩ := h.tracks conn hbefore
  cases hst.symm.trans hst₀
  exact hnot hmem

theorem Sound.reset (hs : p.reset = some p') : p'.Sound := by
  unfold Pool.reset at hs
  split at hs
  next st hst =>
    split at hs
    · cases hs
      exact h
    cases hs
    obtain ⟨conns, hopen, heq, hb, hdials⟩ := h.closeState hst rfl
    rw [heq]
    have hstates : (p.setState p.current { st with canceled := true }).states.length = p.states.length := length_set
    refine ⟨⟨?_, fun j st₀ hj => ?_, fun j hj => ?_, fun st₀ conn hj _ hconn => ?_, hb.told⟩, fun k j hk => ?_,
      fun conn hconn => absurd hconn (hopen conn)⟩
    · show p.states.length < ((p.setState p.current _).states ++ _).length
      rw [length_append, hstates]
      exact Nat.lt_succ_self _
    · rcases of_getElem?_snoc hj with hj | ⟨rfl, rfl⟩
      · exact hb.states j st₀ hj
      · have hzero := hb.later _ (Nat.le_refl _)
        exact ⟨rfl, fun _ => rfl, fun _ => ⟨rfl, rfl⟩, nofun, congrArg Int.ofNat hzero.symm⟩
    · rw [length_append] at hj
      exact hb.later j (Nat.le_trans (Nat.le_add_right _ _) hj)
    · rcases of_getElem?_snoc hj with hj | ⟨-, rfl⟩
      · exact absurd (lt_of_getElem? hj) (Nat.not_lt.mpr (Nat.le_of_eq hstates))
      · cases hconn
    · obtain ⟨st₀, hj, hk₀⟩ := hdials k j hk
      exact ⟨st₀, (List.getElem?_append_left (lt_of_getElem? hj)).trans hj, hk₀⟩
  · cases hs

theorem Sound.close (hs : p.close = some p') : p'.Sound := by
  unfold Pool.close at hs
  split at hs
  next st hst =>
    split at hs
    · cases hs
      exact h
    · cases hs
      obtain ⟨conns, hopen, heq, hb, hdials⟩ := h.closeState hst rfl
      rw [heq]
      exact ⟨{ hb with used := nofun }, hdials, fun conn hconn => absurd hconn (hopen conn)⟩
  · cases hs

theorem Sound.call : ({ p with callers := p.callers ++ [.acquiring] } : Pool).Sound := by
  have hcount : ∀ q : Caller → Bool, q .acquiring = false →
      (p.callers ++ [Caller.acquiring]).countP q = p.callers.countP q := by
    intro q hq
    rw [countP_append, countP_singleton, hq]
    rfl
  exact h.setCallers (fun _ => hcount _ rfl) ⟨fun _ => hcount _ rfl, fun _ => hcount _ rfl, fun _ => hcount _ rfl⟩

theorem Sound.step {l : Label} (hs : p.step (fun _ => true) l = some p') : p'.Sound := by
  cases l with
  | call =>
    cases hs
    exact h.call
  | acquire c => exact h.acquire hs
  | dialed k result => exact h.dialed hs
  | collect c => exact h.collect hs
  | cancel c => exact h.cancel hs
  | wake c => exact h.wake hs
  | release c reuse => exact h.release hs
  | invalidate conn => exact h.invalidate hs
  | closeIdle => exact h.closeIdle hs
  | reset => exact h.reset hs
  | close => exact h.close hs

/-- `CloseIdle` leaves a connection alone that somebody holds. -/
theorem Sound.closeIdle_held (hs : p.closeIdle = some p') (hc : caller ∈ p.callers) {conn : Nat}
    (hholds : caller.holds conn = true) : p'.conns[conn]? = p.conns[conn]? := by
  rcases closeIdle_cases hs with rfl | ⟨st, idle, hst, hopen, hidle, hunused, rfl⟩
  · rfl
  have husers := (h.used st idle hst hopen hidle).users
  have hne : idle ≠ conn := by
    rintro rfl
    have hpos : 0 < p.callers.countP (holds idle) := countP_pos_iff.mpr ⟨caller, hc, hholds⟩
    omega
  exact List.getElem?_set_ne hne

end

end Pool

section
variable {past : List (Pool × Label)} {p : Pool}

theorem sound_run (hrun : (machine fun _ => true).Run past p) : p.Sound := by
  refine hrun.always ?_ fun p p' l h hs => h.step hs
  rintro p rfl
  have hlook : ∀ (i : Nat) (st : PoolState), Pool.new.states[i]? = some st → st = .new := by
    intro i st hi
    exact mem_singleton.mp (mem_of_getElem? hi)
  refine ⟨⟨Nat.zero_lt_one, fun i st hi => ?_, fun _ _ => rfl, fun st conn hi _ hconn => ?_,
    ⟨fun _ _ => rfl, fun _ => rfl⟩⟩, nofun, nofun⟩
  · rw [hlook i st hi]
    exact ⟨rfl, fun _ => rfl, fun _ => ⟨rfl, rfl⟩, nofun, rfl⟩
  · rw [hlook _ st hi] at hconn
    cases hconn

/-- In every state that a pool reaches whose connections are alive, the current state has at most one dial
and one connection, its counters are those of the callers, `CloseIdle` closes nothing that is held, one
caller of each connection that was acquired is its creator, and what is not closed is tracked. -/
theorem accounts_balance (hrun : (machine fun _ => true).Run past p) :
    (∀ st, p.states[p.current]? = some st → p.closed = false →
      (∀ k k' : Nat, p.connects[k]? = some ⟨p.current, none⟩ → p.connects[k']? = some ⟨p.current, none⟩ → k = k') ∧
      st.all.length ≤ 1 ∧
      (∀ conn ∈ st.all, st.sharedUsers = p.callers.countP (holds conn)) ∧
      st.sharedWaiters = p.callers.countP (waitsOn p.current)) ∧
    (∀ p', (machine fun _ => true).step p .closeIdle = some p' → ∀ caller ∈ p.callers, ∀ conn,
      caller.holds conn = true → p'.conns[conn]? = p.conns[conn]?) ∧
    (∀ conn, 0 < p.callers.countP (got conn) → p.callers.countP (toldCreated conn) = 1) ∧
    (∀ conn : Nat, conn < p.conns.length → p.conns[conn]? = some true ∨
      (p.closed = false ∧ ∃ st, p.states[p.current]? = some st ∧ conn ∈ st.all)) := by
  have h := sound_run hrun
  refine ⟨fun st hst hclosed => ⟨fun k k' hk hk' => ?_, ?_, fun conn hconn => ?_, ?_⟩,
    fun p' hs caller hc conn hholds => h.closeIdle_held hs hc hholds, fun conn hpos => ?_, fun conn hconn => ?_⟩
  · exact some.inj ((h.connecting_eq hk hst).symm.trans (h.connecting_eq hk' hst))
  · rw [(h.states p.current st hst).all_eq]
    exact length_toList_le
  · rw [(h.states p.current st hst).all_eq] at hconn
    exact (h.used st conn hst hclosed (mem_toList.mp hconn)).users
  · exact (h.states p.current st hst).waiters
  · rw [h.told.created conn, if_neg (Nat.pos_iff_ne_zero.mp hpos)]
  · cases hflag : p.conns[conn]? with
    | none => exact absurd hconn (Nat.not_lt.mpr (List.getElem?_eq_none_iff.mp hflag))
    | some closed =>
      cases closed with
      | true => exact .inl rfl
      | false => exact .inr (h.tracks conn hflag)

end

/-- Two callers share a dial, one gives the connection back, and an idle check follows. -/
def sharedDial : List Label :=
  [.call, .acquire 0, .call, .acquire 1, .dialed 0 .conn, .collect 0, .collect 1, .release 0 true, .closeIdle]

theorem accounts_balance_sharedDial :
    ∃ past p, (machine fun _ => true).Run past p ∧ p.callers = [.released 0 true, .acquired 0 false] ∧
      p.conns = [false] ∧ ∃ st, p.states = [st] ∧ st.all = [0] ∧ st.sharedUsers = 1 ∧
        st.sharedUsers = p.callers.countP (holds 0) := by
  obtain ⟨p, hp, hcallers, hconns, st, hstates, hall, husers⟩ :
      ∃ p, (machine fun _ => true).exec sharedDial .new = some p ∧
      p.callers = [.released 0 true, .acquired 0 false] ∧ p.conns = [false] ∧
      ∃ st, p.states = [st] ∧ st.all = [0] ∧ st.sharedUsers = 1 := ⟨_, rfl, rfl, rfl, _, rfl, rfl, rfl⟩
  have hrun := System.run_exec (.start _ rfl : (machine fun _ => true).Run [] .new) hp
  refine ⟨_, p, hrun, hcallers, hconns, st, hstates, hall, husers, ?_⟩
  have hclosed : p.closed = false ∧ p.current = 0 := by
    cases hp
    exact ⟨rfl, rfl⟩
  have hst : p.states[p.current]? = some st := by
    rw [hstates, hclosed.2]
    rfl
  exact ((accounts_balance hrun).1 st hst hclosed.1).2.2.1 0 (by rw [hall]; exact mem_singleton_self 0)

end SingBox.ConnPool
