import SingBox.Lib.Transition
import Mathlib.Algebra.BigOperators.Group.List.Basic
import Mathlib.Algebra.Order.Group.Nat
import Mathlib.Algebra.Order.Monoid.Prod
import Mathlib.Data.BitVec

/-!
# Traffic totals

A tracker counts the bytes of a connection, as long as a copy of it runs. The manager has the trackers
of open connections in a table and of closed ones in a list; what leaves the list is added to the
totals, with the bytes counted so far. `Total` loads the counters one by one, under a lock that counting and joining
do not take.
-/
namespace SingBox.Traffic

open Lib List

/-- Bytes up and down, as `int64` has them. -/
abbrev Amount := BitVec 64 × BitVec 64

def int64 (n : Nat × Nat) : Amount := (.ofNat 64 n.1, .ofNat 64 n.2)

def Amount.toInt (a : Amount) : Int × Int := (a.1.toInt, a.2.toInt)

def closedConnectionsLimit : Nat := 1000

/-- A call of `Total`: the trackers it has to load, those it knows, and the sum so far. -/
structure Call where
  due : List Nat
  known : List Nat
  sum : Amount
  deriving DecidableEq

/-- A tracker is the number it has, and its counters hold what it has counted modulo `2 ^ 64`. `joined` and `dropped`
are the history: the trackers that joined, and those that went into the totals. -/
structure Manager where
  bytes : Nat → Nat × Nat
  connections : List Nat
  closedConnections : List Nat
  closedTotal : Amount
  total : Option Call
  joined : List Nat
  dropped : List Nat

/-- `visit` and `load` are the steps of a call of `Total` between its start and its end. -/
inductive Label where
  | join (id : Nat)
  | count (id : Nat) (n : Nat × Nat)
  | leave (id : Nat)
  | clear
  | total
  | visit (id : Nat)
  | load (id : Nat)
  | done
  deriving DecidableEq

namespace Manager

variable (m : Manager)

/-- What the trackers of a list have counted. -/
def counted (l : List Nat) : Nat × Nat := (l.map m.bytes).sum

/-- A tracker joins once, when it is made or when its flow is attached. -/
def join (id : Nat) : Option Manager :=
  if id ∈ m.joined then none else some { m with connections := id :: m.connections, joined := id :: m.joined }

/-- `Upload.Add` and `Download.Add`. -/
def count (id : Nat) (n : Nat × Nat) : Manager :=
  { m with bytes := Function.update m.bytes id (m.bytes id + n) }

/-- The front of the list goes into the totals if the list is full. -/
def evict : Manager :=
  match m.closedConnections with
  | [] => m
  | evicted :: closed =>
    if closedConnectionsLimit ≤ m.closedConnections.length then
      { m with
        closedConnections := closed
        closedTotal := m.closedTotal + int64 (m.bytes evicted)
        dropped := evicted :: m.dropped }
    else m

def leave (id : Nat) : Manager :=
  if id ∈ m.connections then
    let m := { m with connections := m.connections.erase id }.evict
    { m with closedConnections := m.closedConnections ++ [id] }
  else m

def clear : Manager :=
  { m with
    closedConnections := []
    closedTotal := m.closedTotal + int64 (m.counted m.closedConnections)
    dropped := m.closedConnections ++ m.dropped }

/-- A call of `Total` has the lock, and is to load the counters of what is in the list and in the table. -/
def callTotal : Manager :=
  let known := m.closedConnections ++ m.connections
  { m with total := some ⟨known, known, m.closedTotal⟩ }

/-- `Range` may come to a tracker that has joined meanwhile, and to none twice. -/
def visit (call : Call) (id : Nat) : Option Manager :=
  if id ∈ m.connections ∧ id ∉ call.known then
    some { m with total := some { call with due := id :: call.due, known := id :: call.known } }
  else none

/-- The trackers are loaded in any order. What is counted between the two counters of one is as if it were counted
before the first or behind the second, here as in `evict` and `clear`. -/
def load (call : Call) (id : Nat) : Option Manager :=
  if id ∈ call.due then
    some { m with total := some { call with due := call.due.erase id, sum := call.sum + int64 (m.bytes id) } }
  else none

/-- `leave`, `Clear` and `Total` wait for the lock. -/
def step : Label → Option Manager
  | .join id => m.join id
  | .count id n => some (m.count id n)
  | .leave id => if m.total = none then some (m.leave id) else none
  | .clear => if m.total = none then some m.clear else none
  | .total => if m.total = none then some m.callTotal else none
  | .visit id => m.total.bind fun call => m.visit call id
  | .load id => m.total.bind fun call => m.load call id
  | .done => m.total.bind fun call => if call.due = [] then some { m with total := none } else none

/-- `NewManager`. -/
def initial : Manager := ⟨fun _ => 0, [], [], 0, none, [], []⟩

end Manager

def machine : System Manager Label := ⟨(· = Manager.initial), Manager.step⟩

namespace Manager

variable {m m' : Manager} {past : List (Manager × Label)} {call : Call} {id : Nat}

/-- Nothing is counted by a tracker that has gone into the totals, or that a call of `Total` has loaded or does not
know; and a call ends while less than `2 ^ 63` bytes are counted. -/
def Careful (m : Manager) : Label → Prop
  | .count id n => id ∉ m.dropped ∧ (id ∈ m.joined → n ≠ 0 → ∀ call ∈ m.total, id ∈ call.due)
  | .join id => m.total = none ∨ m.bytes id = 0
  | .done => (m.counted m.joined).1 < 2 ^ 63 ∧ (m.counted m.joined).2 < 2 ^ 63
  | _ => True

instance (m : Manager) (l : Label) : Decidable (m.Careful l) := by
  cases l <;> unfold Careful <;> infer_instance

/-- What the calls of `Total` have returned, the last first. -/
def returned (past : List (Manager × Label)) : List (Int × Int) :=
  past.filterMap fun e => if e.2 = .done then e.1.total.map fun call => call.sum.toInt else none

/-- What all trackers that joined have counted. -/
def all (m : Manager) : Int × Int := ((m.counted m.joined).1, (m.counted m.joined).2)

/-- `Total` returns what all trackers that joined have counted, and no less than before; and a tracker that joined is in
one place. -/
structure Booked (past : List (Manager × Label)) (m : Manager) : Prop where
  exact : ∀ e ∈ past, e.2 = .done → ∀ call, e.1.total = some call → call.sum.toInt = e.1.all
  grows : (returned past).Pairwise (· ≥ ·)
  place : ∀ id, m.connections.count id + m.closedConnections.count id + m.dropped.count id =
    if id ∈ m.joined then 1 else 0

theorem int64_add (a b : Nat × Nat) : int64 (a + b) = int64 a + int64 b :=
  Prod.ext (BitVec.ofNat_add a.1 b.1) (BitVec.ofNat_add a.2 b.2)

theorem toInt_ofNat {n : Nat} (h : n < 2 ^ 63) : (BitVec.ofNat 64 n).toInt = n := by
  have hlt : (BitVec.ofNat 64 n).toNat = n := Nat.mod_eq_of_lt (by omega)
  rw [BitVec.toInt_eq_toNat_of_lt (by omega), hlt]

theorem counted_append (k l : List Nat) : m.counted (k ++ l) = m.counted k + m.counted l := by
  rw [counted, map_append, sum_append, counted, counted]

theorem counted_cons (id : Nat) (l : List Nat) : m.counted (id :: l) = m.bytes id + m.counted l := rfl

/-- A list counts the bytes once for each time it has the tracker. -/
theorem counted_count (id : Nat) (n : Nat × Nat) (l : List Nat) :
    (m.count id n).counted l = m.counted l + l.count id • n := by
  induction l with
  | nil => simp [counted]
  | cons i l ih =>
    rw [counted_cons, counted_cons, ih, count_cons]
    by_cases hi : i = id
    · subst hi
      simp only [count, Function.update_self, beq_self_eq_true, if_true]
      rw [succ_nsmul', add_add_add_comm]
    · simp [count, hi, add_assoc]

theorem counted_perm {k l : List Nat} (h : k.Perm l) : m.counted k = m.counted l := (h.map m.bytes).sum_eq

/-- The trackers that joined, by place. -/
def held (m : Manager) : List Nat := m.dropped ++ m.closedConnections ++ m.connections

/-- What a call has loaded and will load is what is counted. -/
structure Sound (m : Manager) (call : Call) : Prop where
  sum : call.sum + int64 (m.counted call.due) = int64 (m.counted m.joined)
  nodup : call.due.Nodup
  due : call.due ⊆ call.known
  known : call.known ⊆ m.joined
  fresh : ∀ id ∈ m.connections, id ∉ call.known → m.bytes id = 0

/-- The totals have what the trackers that were dropped have counted. -/
structure Kept (m : Manager) : Prop where
  perm : m.held.Perm m.joined
  nodup : m.joined.Nodup
  exact : m.closedTotal = int64 (m.counted m.dropped)
  total : ∀ call, m.total = some call → m.Sound call

theorem Kept.place (h : m.Kept) (id : Nat) :
    m.connections.count id + m.closedConnections.count id + m.dropped.count id = if id ∈ m.joined then 1 else 0 := by
  have hcount := h.perm.count_eq id
  rw [held, count_append, count_append, h.nodup.count] at hcount
  omega

/-- A tracker that leaves the list leaves it for the totals. -/
theorem evict_spec (hexact : m.closedTotal = int64 (m.counted m.dropped)) :
    m.evict.held.Perm m.held ∧ m.evict.closedTotal = int64 (m.evict.counted m.evict.dropped) ∧
      m.evict.connections = m.connections ∧ m.evict.joined = m.joined ∧ m.evict.bytes = m.bytes ∧
      m.evict.total = m.total := by
  unfold evict
  split
  · exact ⟨.refl _, hexact, rfl, rfl, rfl, rfl⟩
  next evicted closed hclosed =>
    split
    · refine ⟨?_, ?_, rfl, rfl, rfl, rfl⟩
      · rw [held, held, hclosed, append_assoc, append_assoc, cons_append]
        exact perm_middle.symm
      · rw [counted_cons, int64_add, hexact, add_comm]
        rfl
    · exact ⟨.refl _, hexact, rfl, rfl, rfl, rfl⟩

theorem Kept.leave (h : m.Kept) (hfree : m.total = none) (id : Nat) :
    (m.leave id).Kept ∧ (m.leave id).counted (m.leave id).joined = m.counted m.joined := by
  unfold Manager.leave
  split
  next hid =>
    obtain ⟨hperm, hexact, hconnections, hjoined, hbytes, htotal⟩ :=
      evict_spec (m := { m with connections := m.connections.erase id }) h.exact
    dsimp only at hperm hexact hconnections hjoined hbytes htotal ⊢
    generalize ({ m with connections := m.connections.erase id } : Manager).evict = e at *
    refine ⟨⟨perm_iff_count.mpr fun i => ?_, hjoined ▸ h.nodup, hexact, ?_⟩, ?_⟩
    · have hbefore := h.perm.count_eq i
      have hevict := hperm.count_eq i
      have hid := (perm_cons_erase hid).count_eq i
      simp only [held, hconnections, hjoined, count_append, count_cons, count_nil] at hbefore hevict hid ⊢
      omega
    · intro call hcall
      cases hfree.symm.trans (htotal.symm.trans hcall)
    · rw [counted, counted, hjoined, hbytes]
  · exact ⟨h, rfl⟩

theorem Kept.clear (h : m.Kept) (hfree : m.total = none) : m.clear.Kept := by
  refine ⟨?_, h.nodup, ?_, fun call hcall => ?_⟩
  · change ((m.closedConnections ++ m.dropped) ++ [] ++ m.connections).Perm m.joined
    rw [append_nil]
    exact (perm_append_comm.append_right _).trans h.perm
  · change m.closedTotal + int64 (m.counted m.closedConnections) = int64 (m.counted (m.closedConnections ++ m.dropped))
    rw [counted_append, int64_add, h.exact, add_comm]
  · cases hfree.symm.trans hcall

theorem Kept.join (h : m.Kept) (hid : id ∉ m.joined) (hl : m.total = none ∨ m.bytes id = 0) :
    Kept { m with connections := id :: m.connections, joined := id :: m.joined } := by
  refine ⟨perm_middle.trans (h.perm.cons id), nodup_cons.mpr ⟨hid, h.nodup⟩, h.exact, fun call hcall => ?_⟩
  have hzero : m.bytes id = 0 := hl.resolve_left fun hnone => nomatch hnone.symm.trans hcall
  have hs := h.total call hcall
  refine ⟨?_, hs.nodup, hs.due, fun i hi => mem_cons_of_mem id (hs.known hi),
    forall_mem_cons.mpr ⟨fun _ => hzero, hs.fresh⟩⟩
  change call.sum + int64 (m.counted call.due) = int64 (m.counted (id :: m.joined))
  rw [counted_cons, hzero, zero_add, hs.sum]

theorem Kept.count (h : m.Kept) {n : Nat × Nat} (hl : m.Careful (.count id n)) : (m.count id n).Kept := by
  obtain ⟨hdropped, hcalls⟩ := hl
  refine ⟨h.perm, h.nodup, ?_, fun call hcall => ?_⟩
  · change m.closedTotal = int64 ((m.count id n).counted m.dropped)
    rw [counted_count, count_eq_zero.mpr hdropped, zero_nsmul, add_zero, h.exact]
  have hs := h.total call hcall
  refine ⟨?_, hs.nodup, hs.due, hs.known, fun i hi hnew => ?_⟩
  · change call.sum + int64 ((m.count id n).counted call.due) = int64 ((m.count id n).counted m.joined)
    have hsame : call.due.count id • n = m.joined.count id • n := by
      by_cases hid : id ∈ m.joined
      · by_cases hn : n = 0
        · simp [hn]
        · rw [hs.nodup.count, h.nodup.count, if_pos hid, if_pos (hcalls hid hn call hcall)]
      · rw [count_eq_zero.mpr hid, count_eq_zero.mpr fun hdue => hid (hs.known (hs.due hdue))]
    rw [counted_count, counted_count, hsame, int64_add, int64_add, ← add_assoc, hs.sum]
  · have hzero := hs.fresh i hi hnew
    by_cases heq : i = id
    · subst heq
      have hn : n = 0 := by
        by_contra hn
        exact hnew (hs.due (hcalls (h.perm.subset (mem_append_right _ hi)) hn call hcall))
      simp [Manager.count, hzero, hn]
    · simpa [Manager.count, heq] using hzero

theorem Kept.setTotal (h : m.Kept) (hs : m.Sound call) : Kept { m with total := some call } := by
  refine ⟨h.perm, h.nodup, h.exact, fun call' hcall => ?_⟩
  cases hcall
  exact ⟨hs.sum, hs.nodup, hs.due, hs.known, hs.fresh⟩

theorem Kept.callTotal (h : m.Kept) : m.callTotal.Kept := by
  have hheld : (m.dropped ++ (m.closedConnections ++ m.connections)).Perm m.joined := by
    rw [← append_assoc]
    exact h.perm
  have hnodup := (nodup_append.mp (hheld.nodup_iff.mpr h.nodup)).2.1
  refine h.setTotal ⟨?_, hnodup, Subset.refl _, fun id hid => hheld.subset (mem_append_right _ hid),
    fun id hid hnew => absurd (mem_append_right _ hid) hnew⟩
  rw [h.exact, ← int64_add, ← counted_append, counted_perm hheld]

theorem Kept.visit (h : m.Kept) (hcall : m.total = some call) (hs : m.visit call id = some m') :
    m'.Kept ∧ m'.counted m'.joined = m.counted m.joined := by
  obtain ⟨⟨hid, hnew⟩, heq⟩ := Option.ite_none_right_eq_some.mp hs
  cases heq
  have hsound := h.total call hcall
  refine ⟨h.setTotal ⟨?_, nodup_cons.mpr ⟨fun hdue => hnew (hsound.due hdue), hsound.nodup⟩,
    cons_subset_cons id hsound.due, cons_subset.mpr ⟨h.perm.subset (mem_append_right _ hid), hsound.known⟩,
    fun i hi hi' => hsound.fresh i hi fun hold => hi' (mem_cons_of_mem id hold)⟩, rfl⟩
  rw [counted_cons, hsound.fresh id hid hnew, zero_add, hsound.sum]

theorem Kept.load (h : m.Kept) (hcall : m.total = some call) (hs : m.load call id = some m') :
    m'.Kept ∧ m'.counted m'.joined = m.counted m.joined := by
  obtain ⟨hdue, heq⟩ := Option.ite_none_right_eq_some.mp hs
  cases heq
  have hsound := h.total call hcall
  refine ⟨h.setTotal ⟨?_, hsound.nodup.erase id, fun i hi => hsound.due (mem_of_mem_erase hi), hsound.known,
    hsound.fresh⟩, rfl⟩
  rw [add_assoc, ← int64_add, ← counted_cons, ← counted_perm (perm_cons_erase hdue), hsound.sum]

theorem Kept.step (h : m.Kept) {l : Label} (hl : m.Careful l) (hs : m.step l = some m') :
    m'.Kept ∧ m.counted m.joined ≤ m'.counted m'.joined := by
  cases l with
  | join id =>
    obtain ⟨hid, heq⟩ := Option.ite_none_left_eq_some.mp hs
    cases heq
    exact ⟨h.join hid hl, le_add_self⟩
  | count id n =>
    cases hs
    refine ⟨h.count hl, ?_⟩
    change _ ≤ (m.count id n).counted m.joined
    rw [counted_count]
    exact le_self_add
  | leave id =>
    obtain ⟨hfree, heq⟩ := Option.ite_none_right_eq_some.mp hs
    cases heq
    exact (h.leave hfree id).imp_right Eq.ge
  | clear =>
    obtain ⟨hfree, heq⟩ := Option.ite_none_right_eq_some.mp hs
    cases heq
    exact ⟨h.clear hfree, le_refl _⟩
  | total =>
    obtain ⟨_, heq⟩ := Option.ite_none_right_eq_some.mp hs
    cases heq
    exact ⟨h.callTotal, le_refl _⟩
  | visit id =>
    obtain ⟨call, hcall, hs⟩ := Option.bind_eq_some_iff.mp hs
    exact (h.visit hcall hs).imp_right Eq.ge
  | load id =>
    obtain ⟨call, hcall, hs⟩ := Option.bind_eq_some_iff.mp hs
    exact (h.load hcall hs).imp_right Eq.ge
  | done =>
    obtain ⟨call, _, hs⟩ := Option.bind_eq_some_iff.mp hs
    obtain ⟨_, heq⟩ := Option.ite_none_right_eq_some.mp hs
    cases heq
    exact ⟨⟨h.perm, h.nodup, h.exact, nofun⟩, le_refl _⟩

theorem Kept.returns (h : m.Kept) (hl : m.Careful .done) (hs : m.step .done = some m') (hcall : m.total = some call) :
    call.sum.toInt = m.all := by
  have hdue : call.due = [] := by
    rw [Manager.step, hcall, Option.bind_some] at hs
    exact (Option.ite_none_right_eq_some.mp hs).1
  have hsum := (h.total call hcall).sum
  have hzero : int64 (m.counted call.due) = 0 := by rw [hdue]; rfl
  rw [hzero, add_zero] at hsum
  rw [hsum]
  exact Prod.ext (toInt_ofNat hl.1) (toInt_ofNat hl.2)

/-- In every run in which no tracker counts behind its end in the totals or behind its load by `Total`, and `int64`
does not overflow. -/
theorem booked_of_run (hrun : machine.Run past m) (hal : System.Along Careful past) : m.Booked past := by
  have hinv : m.Kept ∧ m.Booked past ∧ ∀ v ∈ returned past, v ≤ m.all := by
    refine hrun.invariant_past (I := fun past m => m.Kept ∧ m.Booked past ∧ ∀ v ∈ returned past, v ≤ m.all)
      (fun m hm => ?_) (fun past m m' l _ h hl hs => ?_) hal
    · cases hm
      exact ⟨⟨.refl _, nodup_nil, rfl, nofun⟩, ⟨nofun, .nil, fun _ => rfl⟩, nofun⟩
    obtain ⟨hkept, hbooked, hbound⟩ := h
    obtain ⟨hkept', hle⟩ := hkept.step hl hs
    have hle : m.all ≤ m'.all := ⟨Int.ofNat_le.mpr hle.1, Int.ofNat_le.mpr hle.2⟩
    have hreturns : l = .done → ∀ call, m.total = some call → call.sum.toInt = m.all := by
      rintro rfl call hcall
      exact hkept.returns hl hs hcall
    have hexact : ∀ e ∈ (m, l) :: past, e.2 = .done → ∀ call, e.1.total = some call → call.sum.toInt = e.1.all :=
      forall_mem_cons.mpr ⟨hreturns, hbooked.exact⟩
    have hbound' : ∀ v ∈ returned past, v ≤ m'.all := fun v hv => (hbound v hv).trans hle
    by_cases hdone : l = .done ∧ m.total.isSome
    · obtain ⟨rfl, hsome⟩ := hdone
      obtain ⟨call, hcall⟩ := Option.isSome_iff_exists.mp hsome
      have hcons : returned ((m, .done) :: past) = m.all :: returned past := by
        simp [returned, hcall, hreturns rfl call hcall]
      rw [hcons]
      exact ⟨hkept', ⟨hexact, hcons ▸ pairwise_cons.mpr ⟨hbound, hbooked.grows⟩, hkept'.place⟩,
        forall_mem_cons.mpr ⟨hle, hbound'⟩⟩
    · have hnone : returned ((m, l) :: past) = returned past := by
        refine filterMap_cons_none ?_
        rw [ite_eq_right_iff]
        intro hl
        simpa using fun hsome => hdone ⟨hl, hsome⟩
      rw [hnone]
      exact ⟨hkept', ⟨hexact, hnone ▸ hbooked.grows, hkept'.place⟩, hbound'⟩
  exact hinv.2.1

/-- A copy goes on behind the end of its connection, and `Total` is called while another one counts. -/
def copied : List Label :=
  [.join 0, .count 0 (3, 4), .leave 0, .count 0 (1, 0), .clear, .join 1, .total, .count 1 (2, 2), .load 1, .done]

def copiedEnd : Manager := (machine.exec copied initial).getD initial

theorem booked_copied :
    returned (machine.trace copied initial []) = [(6, 6)] ∧ copiedEnd.Booked (machine.trace copied initial []) :=
  ⟨by decide +kernel, booked_of_run (System.run_exec (.start _ rfl) rfl) (System.along_exec (by decide +kernel))⟩

/-- What a copy counts when its connection is in the totals is lost; and a call of `Total` may return what was never
counted, without what one tracker counts behind its load and with what another one counts later. -/
theorem counted_behind_clear :
    (∃ past m, machine.Run past m ∧ returned past = [(0, 0)] ∧ m.counted m.joined = (5, 0) ∧ ¬m.Booked past) ∧
      ∃ past m, machine.Run past m ∧ returned past = [(3, 0)] ∧
        (∀ e ∈ past, e.1.counted e.1.joined ∈ [(0, 0), (5, 0), (8, 0)]) ∧ ¬m.Booked past := by
  let lost : List Label := [.join 0, .leave 0, .clear, .count 0 (5, 0), .total, .done]
  let torn : List Label :=
    [.join 0, .join 1, .total, .load 0, .count 0 (5, 0), .count 1 (3, 0), .load 1, .done]
  have hlost : ¬((machine.exec lost initial).getD initial).Booked (machine.trace lost initial []) := by
    intro h
    exact absurd (h.exact _ mem_cons_self rfl _ rfl) (by decide +kernel)
  have htorn : ¬((machine.exec torn initial).getD initial).Booked (machine.trace torn initial []) := by
    intro h
    exact absurd (h.exact _ mem_cons_self rfl _ rfl) (by decide +kernel)
  refine ⟨⟨_, _, System.run_exec (.start _ rfl) rfl, ?_, ?_, hlost⟩, _, _, System.run_exec (.start _ rfl) rfl, ?_, ?_,
    htorn⟩
  · decide +kernel
  · decide +kernel
  · decide +kernel
  · decide +kernel

end Manager
end SingBox.Traffic
