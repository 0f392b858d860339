import SingBox.Group.Selector
import SingBox.Lib.Count

/-!
# Connections through a selector

A connection goes through the member that was selected when it began, and joins the interrupt
group once it is dialed or routed. `SelectOutbound` swaps the member and then closes what it
finds in the group.
-/
namespace SingBox.Group.Interrupt

open Lib List

/-- Who makes a connection: `DialContext` or `ListenPacket`, with the flag of the context, or the router. -/
inductive Origin where
  | dialed (external : Bool)
  | routed

/-- `isExternal` of the item in the group. -/
def Origin.isExternal : Origin → Bool
  | .dialed external => external
  | .routed => true

/-- The selection was loaded, the item is in the group, the end of the connection took it out,
`Interrupt` took it out, or the connection is closed; an item of a closed one may still be there. -/
inductive Stage where
  | loaded
  | grouped
  | leaving
  | taken
  | closed
  deriving DecidableEq

structure Connection where
  member : Instance
  origin : Origin
  stage : Stage

/-- A call of `SelectOutbound` that has swapped the member: before `Interrupt`, and in the loop over
its closers. It returns when none is left. -/
inductive Call where
  | swapped
  | closing (closers : List Nat)
  deriving DecidableEq

structure Selector where
  outbounds : String → Option Instance
  selected : Option Instance
  connections : List Connection
  calls : List Call

inductive Label where
  | load (origin : Origin)
  | fail (c : Nat)
  | add (c : Nat)
  | leave (c : Nat)
  | close (c : Nat)
  | swap (tag : String)
  | interrupt (call : Nat)
  | closeNext (call : Nat)

namespace Selector

variable (s : Selector)

/-- `selected.Load`, by `DialContext`, `ListenPacket` or `resolveOutbound`. -/
def load (origin : Origin) : Option Selector :=
  s.selected.map fun member => { s with connections := s.connections ++ [⟨member, origin, .loaded⟩] }

/-- A connection in one of the stages goes on to the next. -/
def move (c : Nat) (stages : List Stage) (next : Stage) : Option Selector :=
  match s.connections[c]? with
  | some conn =>
    if conn.stage ∈ stages then some { s with connections := s.connections.set c { conn with stage := next } } else none
  | none => none

/-- `SelectOutbound` up to the swap; a member that is selected already ends it. -/
def swap (tag : String) : Selector :=
  match s.outbounds tag with
  | none => s
  | some detour =>
    if s.selected = some detour then s
    else { s with selected := some detour, calls := s.calls ++ [.swapped] }

/-- What `Interrupt` takes out of the group. -/
def takes (interruptExternalConnections : Bool) (conn : Connection) : Bool :=
  decide (conn.stage = .grouped) && (!conn.origin.isExternal || interruptExternalConnections)

/-- The lock section of `Interrupt`. -/
def interrupt (interruptExternalConnections : Bool) (call : Nat) : Option Selector :=
  match s.calls[call]? with
  | some .swapped =>
    let takes := takes interruptExternalConnections
    some
      { s with
        connections := s.connections.map fun conn => if takes conn then { conn with stage := .taken } else conn
        calls := s.calls.set call
          (.closing ((range s.connections.length).filter fun c => (s.connections[c]?).any takes)) }
  | _ => none

/-- One turn of the loop over the closers. -/
def closeNext (call : Nat) : Option Selector :=
  match s.calls[call]? with
  | some (.closing (c :: closers)) =>
    some
      { s with
        connections := s.connections.modify c fun conn => { conn with stage := .closed }
        calls := s.calls.set call (.closing closers) }
  | _ => none

def step (interruptExternalConnections : Bool) : Label → Option Selector
  | .load origin => s.load origin
  | .fail c => s.move c [.loaded] .closed
  | .add c => s.move c [.loaded] .grouped
  | .leave c => s.move c [.grouped] .leaving
  | .close c => s.move c [.grouped, .leaving, .taken] .closed
  | .swap tag => some (s.swap tag)
  | .interrupt call => s.interrupt interruptExternalConnections call
  | .closeNext call => s.closeNext call

end Selector

/-- A selector that is started, with every call of `SelectOutbound` and every connection side by side. -/
def machine (interruptExternalConnections : Bool) : System Selector Label where
  init s := s.connections = [] ∧ s.calls = []
  step s l := s.step interruptExternalConnections l

namespace Selector

/-- Every `SelectOutbound` has returned, and no dial or routing is in progress. -/
structure Quiet (s : Selector) : Prop where
  calls : ∀ call ∈ s.calls, call = .closing []
  connections : ∀ conn ∈ s.connections, conn.stage ≠ .loaded

/-- The selection does not change while a connection is outside the group and not closed, and none
leaves the group that is on another member. -/
def careful (s : Selector) : Label → Bool
  | .swap tag =>
    (s.outbounds tag).all (fun detour => decide (s.selected = some detour)) ||
      s.connections.all fun conn => decide (conn.stage ≠ .loaded ∧ conn.stage ≠ .leaving)
  | .leave c => (s.connections[c]?).all fun conn => decide (s.selected = some conn.member)
  | _ => true

/-- A connection on another member is in the group, which is to be interrupted, or about to be closed. -/
def Follows (selected : Option Instance) (calls : List Call) (c : Nat) (conn : Connection) : Prop :=
  match conn.stage with
  | .loaded | .leaving => selected = some conn.member
  | .grouped => selected = some conn.member ∨ .swapped ∈ calls
  | .taken => ∃ closers, .closing closers ∈ calls ∧ c ∈ closers
  | .closed => True

def Tracked (s : Selector) : Prop :=
  ∀ (c : Nat) (conn : Connection), s.connections[c]? = some conn → Follows s.selected s.calls c conn

variable {s s' : Selector}

/-- The members and the selection are those of a selector with its cache file. -/
structure Shows (s : Selector) (g : Group.Selector) : Prop where
  outbounds : s.outbounds = g.outbounds
  selected : s.selected = g.selected

/-- A step is a swap of that selector too, or none of its steps. -/
theorem Shows.step {g : Group.Selector} (h : s.Shows g) (o : SelectorOptions) {external : Bool} {l : Label}
    (hs : s.step external l = some s') :
    s'.Shows g ∨ ∃ tag g', l = .swap tag ∧ (selectors o).step g (.select tag) = some g' ∧ s'.Shows g' := by
  cases l with
  | load origin =>
    obtain ⟨_, _, rfl⟩ := Option.map_eq_some_iff.mp hs
    exact .inl ⟨h.outbounds, h.selected⟩
  | swap tag =>
    cases hs
    refine .inr ⟨tag, _, rfl, rfl, ?_⟩
    unfold Selector.swap Group.Selector.selectOutbound
    rw [← h.outbounds]
    cases s.outbounds tag with
    | none => exact h
    | some detour =>
      by_cases hsame : s.selected = some detour <;> exact ⟨by simp [hsame], by simp [hsame]⟩
  | _ =>
    simp only [Selector.step, Selector.move, Selector.interrupt, Selector.closeNext] at hs
    repeat' split at hs
    all_goals cases hs
    all_goals exact .inl ⟨h.outbounds, h.selected⟩

theorem mem_set_of_ne {calls : List Call} {k : Nat} {before call : Call} (hk : calls[k]? = some before)
    (h : call ∈ calls) (hne : call ≠ before) (after : Call) : call ∈ calls.set k after := by
  obtain ⟨j, hj⟩ := mem_iff_getElem?.mp h
  have hkj : k ≠ j := by
    rintro rfl
    exact hne (Option.some.inj (hj.symm.trans hk))
  exact mem_iff_getElem?.mpr ⟨j, (getElem?_set_ne hkj).trans hj⟩

/-- What a call goes on to leaves its claims to the connection that it still has. -/
theorem Follows.set {selected : Option Instance} {calls : List Call} {c k : Nat} {conn : Connection}
    (h : Follows selected calls c conn) {before after : Call} (hk : calls[k]? = some before)
    (hgrouped : conn.stage = .grouped → before ≠ .swapped)
    (htaken : ∀ closers, before = .closing closers → c ∈ closers →
      ∃ closers', after = .closing closers' ∧ c ∈ closers') :
    Follows selected (calls.set k after) c conn := by
  cases hstage : conn.stage <;> simp only [Follows, hstage] at h ⊢
  case loaded | leaving => exact h
  case grouped => exact h.imp_right fun hmem => mem_set_of_ne hk hmem (Ne.symm (hgrouped hstage)) _
  case taken =>
    obtain ⟨closers, hmem, hc⟩ := h
    by_cases heq : Call.closing closers = before
    · obtain ⟨closers', rfl, hc'⟩ := htaken closers heq.symm hc
      exact ⟨closers', mem_set (lt_of_getElem? hk) _, hc'⟩
    · exact ⟨closers, mem_set_of_ne hk hmem heq _, hc⟩

section
variable (h : s.Tracked)
include h

theorem Tracked.load {origin : Origin} (hs : s.load origin = some s') : s'.Tracked := by
  obtain ⟨member, hsel, rfl⟩ := Option.map_eq_some_iff.mp hs
  intro c conn hc
  rcases of_getElem?_snoc hc with hc | ⟨_, rfl⟩
  · exact h c conn hc
  · exact hsel

theorem Tracked.move {c : Nat} {stages : List Stage} {next : Stage} (hs : s.move c stages next = some s')
    (hnext : ∀ conn, s.connections[c]? = some conn → conn.stage ∈ stages →
      Follows s.selected s.calls c { conn with stage := next }) : s'.Tracked := by
  unfold Selector.move at hs
  split at hs
  next conn hc =>
    split at hs
    next hstage =>
      cases hs
      intro j conn' hj
      rcases of_getElem?_set hj with ⟨rfl, rfl⟩ | ⟨-, hj⟩
      · exact hnext conn hc hstage
      · exact h j conn' hj
    · cases hs
  · cases hs

theorem Tracked.swap {tag : String} (hcareful : s.careful (.swap tag) = true) : (s.swap tag).Tracked := by
  simp only [careful, Bool.or_eq_true, all_eq_true, decide_eq_true_eq] at hcareful
  unfold Selector.swap
  split
  · exact h
  next detour hdetour =>
    split
    · exact h
    next hne =>
      rw [hdetour] at hcareful
      intro c conn hc
      obtain ⟨hloaded, hleaving⟩ := hcareful.resolve_left (by simpa using hne) conn (mem_of_getElem? hc)
      have hconn := h c conn hc
      cases hstage : conn.stage <;> simp only [Follows, hstage] at hconn ⊢
      case loaded => exact absurd hstage hloaded
      case leaving => exact absurd hstage hleaving
      case grouped => exact .inr (mem_append_right _ mem_cons_self)
      case taken =>
        obtain ⟨closers, hmem, hin⟩ := hconn
        exact ⟨closers, mem_append_left _ hmem, hin⟩

/-- With `interrupt_exist_connections` nothing is left in the group. -/
theorem Tracked.interrupt {k : Nat} (hs : s.interrupt true k = some s') : s'.Tracked := by
  unfold Selector.interrupt at hs
  split at hs
  next hk =>
    cases hs
    intro c conn hc
    rw [getElem?_map] at hc
    obtain ⟨before, hbefore, rfl⟩ := Option.map_eq_some_iff.mp hc
    split
    next htakes =>
      refine ⟨_, mem_set (lt_of_getElem? hk) _, mem_filter.mpr ⟨mem_range.mpr (lt_of_getElem? hbefore), ?_⟩⟩
      rw [hbefore]
      exact htakes
    next htakes => exact (h c before hbefore).set hk (fun hgrouped => by simp [takes, hgrouped] at htakes) nofun
  · cases hs

theorem Tracked.closeNext {k : Nat} (hs : s.closeNext k = some s') : s'.Tracked := by
  unfold Selector.closeNext at hs
  split at hs
  next c closers hk =>
    cases hs
    intro j conn hj
    rw [getElem?_modify] at hj
    obtain ⟨before, hbefore, rfl⟩ := Option.map_eq_some_iff.mp hj
    split
    · trivial
    next hne =>
      refine (h j before hbefore).set hk (fun _ => nofun) fun _ heq hin => ⟨closers, rfl, ?_⟩
      cases heq
      exact (mem_cons.mp hin).resolve_left (Ne.symm hne)
  · cases hs

theorem Tracked.step {l : Label} (hcareful : s.careful l = true) (hs : s.step true l = some s') : s'.Tracked := by
  cases l with
  | load origin => exact h.load hs
  | fail c | close c => exact h.move hs fun _ _ _ => trivial
  | add c =>
    refine h.move hs fun conn hc hstage => .inl ?_
    have hconn := h c conn hc
    rwa [Follows, mem_singleton.mp hstage] at hconn
  | leave c => exact h.move hs fun conn hc _ => by simpa [Follows, careful, hc] using hcareful
  | swap tag =>
    cases hs
    exact h.swap hcareful
  | interrupt k => exact h.interrupt hs
  | closeNext k => exact h.closeNext hs

end

end Selector

/-- In every run in which the selection does not change while a connection is between the load and the
group, or between the group and its own end, no connection on another member is left open. -/
theorem switch_leaves_none (past : List (Selector × Label)) (s : Selector) (hrun : (machine true).Run past s)
    (hal : System.Along (fun s l => s.careful l = true) past) (hquiet : s.Quiet) :
    ∀ conn ∈ s.connections, s.selected ≠ some conn.member → conn.stage = .closed := by
  have h : s.Tracked := by
    refine hrun.invariant (fun s hs c conn hc => ?_) (fun _ _ _ h hcareful hs => h.step hcareful hs) hal
    rw [hs.1] at hc
    cases hc
  intro conn hconn hother
  obtain ⟨c, hc⟩ := mem_iff_getElem?.mp hconn
  have hconn := h c conn hc
  cases hstage : conn.stage <;> simp only [Selector.Follows, hstage] at hconn
  case loaded | leaving => exact absurd hconn hother
  case grouped => cases hquiet.calls _ (hconn.resolve_left hother)
  case taken =>
    obtain ⟨closers, hmem, hin⟩ := hconn
    cases hquiet.calls _ hmem
    cases hin
  case closed => rfl

def twoMembers : Selector where
  outbounds tag := if tag = "a" ∨ tag = "b" then some (direct tag) else none
  selected := some (direct "a")
  connections := []
  calls := []

theorem switch_leaves_none_twoMembers :
    ∃ past s, (machine true).Run past s ∧ s.selected = some (direct "b") ∧
      s.connections.map Connection.member = [direct "a"] ∧ ∀ conn ∈ s.connections, conn.stage = .closed := by
  obtain ⟨s, hs, hsel, hmem, hquiet⟩ : ∃ s, (machine true).exec
      [.load .routed, .add 0, .swap "b", .interrupt 0, .closeNext 0] twoMembers = some s ∧
      s.selected = some (direct "b") ∧ s.connections.map Connection.member = [direct "a"] ∧ s.Quiet :=
    ⟨_, rfl, rfl, rfl, ⟨by decide, by decide⟩⟩
  have hrun := System.run_exec (.start _ ⟨rfl, rfl⟩ : (machine true).Run [] twoMembers) hs
  refine ⟨_, s, hrun, hsel, hmem, fun conn hconn => ?_⟩
  refine switch_leaves_none _ s hrun (System.along_exec (by decide)) hquiet conn hconn ?_
  have hother : conn.member = direct "a" := by
    have := mem_map_of_mem (f := Connection.member) hconn
    rw [hmem] at this
    exact mem_singleton.mp this
  rw [hsel, hother]
  decide

/-- A switch in the middle of a dial misses its connection. -/
theorem switch_misses_a_dial : ∃ past s, (machine true).Run past s ∧ s.Quiet ∧
    ∃ conn ∈ s.connections, s.selected ≠ some conn.member ∧ conn.stage ≠ .closed := by
  obtain ⟨s, hs, hquiet, hleft⟩ : ∃ s, (machine true).exec
      [.load (.dialed false), .swap "b", .interrupt 0, .add 0] twoMembers = some s ∧ s.Quiet ∧
      ∃ conn ∈ s.connections, s.selected ≠ some conn.member ∧ conn.stage ≠ .closed :=
    ⟨_, rfl, ⟨by decide, by decide⟩, ⟨direct "a", .dialed false, .grouped⟩, mem_cons_self, by decide, by decide⟩
  exact ⟨_, s, System.run_exec (.start _ ⟨rfl, rfl⟩) hs, hquiet, hleft⟩

end SingBox.Group.Interrupt
