import SingBox.FakeIP.Agreement

/-!
# Addresses given out survive a crash

The saved position runs ahead of the one in memory by a reserve: what is given
out before the next save lies inside the `step` offsets that end at the saved
position, and these are held back by the next load unless the stop was clean. A
save opens the next reserve while the old one is still being used up.
-/
namespace SingBox.FakeIP

open SingBox.Lib Option

namespace Pool

/-- `left` offsets, from `next` on, are the last ones of those that end at `last`. -/
structure Left (p : Pool) (last left : Nat) : Prop where
  last : last = Ring.ahead firstOffset p.net.usable p.next (left + p.net.usable - 1)
  le : left ≤ p.net.step

/-- The offset is one of the `step` offsets of the ring that end at `last`. -/
def Inside (p : Pool) (last o : Nat) : Prop := Ring.Window firstOffset p.net.usable last p.net.step o

/-- The reserve in memory reaches up to the position it was opened with. -/
structure Spare (p : Pool) : Prop where
  unreserved : p.reserved = false → p.budget = 0
  reserved : p.reserved = true → p.Left p.reserveLast p.budget

/-- The position a save under way writes. The new reserve is counted from where it
was collected, and what is left of the old one lies inside. -/
def Planned (plan : PoolPlan) (p : Pool) : Prop :=
  ∃ more, p.Left plan.last (p.budget + more) ∧
    match plan.reserve with
    | none => more = 0 ∧ p.reserved = true ∧ p.reserveLast = plan.last
    | some start => start ≤ p.advanced ∧ p.advanced - start + (p.budget + more) = p.net.step

section
variable {p q : Pool} {last count more : Nat}

section
variable (h : p.Left last count) (hi : p.Index)
include h hi

theorem Left.mem : Ring.Mem firstOffset p.net.usable last := by
  rw [h.last]
  exact Ring.ahead_mem hi.usable _ _

theorem Left.next (hpos : 0 < count) : p.Inside last p.next :=
  Ring.window_of_budget hi.usable hi.next h.last hpos h.le (p.net.step_le hi.usable)

theorem Left.advance (hpos : 0 < count) (saved : Bool) :
    (p.advance saved).Left last (count - 1) where
  last := Ring.budget_after hi.usable hi.next h.last hpos
  le := le_trans (Nat.sub_le _ _) h.le

end

theorem advance_budget (p : Pool) : (p.advance true).budget = p.budget - 1 := rfl

theorem Walk.left (hw : Walk true false p q) (hi : p.Index) (h : p.Left last (p.budget + more)) :
    q.Left last (q.budget + more) ∧ q.advanced + q.budget = p.advanced + p.budget ∧ p.advanced ≤ q.advanced := by
  induction hw with
  | stop p => exact ⟨h, rfl, le_refl _⟩
  | step p q hm _ ih =>
    have hpos := hm rfl rfl
    have ha := h.advance hi (Nat.add_pos_left hpos more) true
    rw [Nat.sub_add_comm hpos, ← p.advance_budget] at ha
    obtain ⟨h₁, h₂, h₃⟩ := ih (hi.advance true) ha
    have hadv : (p.advance true).advanced = p.advanced + 1 := rfl
    have hbud := p.advance_budget
    exact ⟨h₁, by omega, by omega⟩

theorem Walk.exhausted (hw : Walk true false p q) (hb : p.budget = 0) : q = p := by
  cases hw with
  | stop => rfl
  | step _ _ hm =>
    have := hm rfl rfl
    omega

end

section
variable {s : Store} {named : Prop} {used : Nat → Prop} {p q : Pool} {last more : Nat}

theorem Query.reserve (h : Query s named used p q) :
    q.reserved = p.reserved ∧ q.reserveLast = p.reserveLast := by
  cases h with
  | keep | touch => exact ⟨rfl, rfl⟩
  | walk _ _ hw | assign _ _ _ _ hw => rw [hw.frame]; exact ⟨rfl, rfl⟩

theorem Query.forgotten (h : Query s named used p q) : q.forgotten = p.forgotten := by
  cases h with
  | keep | touch => rfl
  | walk q _ hw => rw [hw.frame]
  | assign t domain stamp _ hw => rw [hw.frame]; rfl

/-- The record `r` is new, and inside the offsets that end at `last`. -/
def Query.Gives (s : Store) (p q : Pool) (last : Nat) : Prop :=
  ∀ r, q.current r = true → p.current r = true ∨ (s.closed = false ∧ q.Inside last (q.heap r).offset)

section
variable (h : Query s named used p q)
include h

section
variable (hs : s.saved = true) (hf : s.storageFailed = false)
include hs hf

/-- What a query uses up of a reserve it gives out of that reserve. -/
theorem Query.left (hi : p.Index) (hl : p.Left last (p.budget + more)) :
    q.Left last (q.budget + more) ∧ q.advanced + q.budget = p.advanced + p.budget ∧
      p.advanced ≤ q.advanced ∧ Query.Gives s p q last := by
  cases h with
  | keep => exact ⟨hl, rfl, le_refl _, fun r hr => .inl hr⟩
  | touch k stamp =>
    exact ⟨⟨hl.last, hl.le⟩, rfl, le_refl _, fun r hr => .inl (((p.sameIndex_touch k stamp).current r).symm.trans hr)⟩
  | walk q _ hw =>
    rw [hs, hf] at hw
    obtain ⟨h₁, h₂, h₃⟩ := hw.left hi hl
    exact ⟨h₁, h₂, h₃, fun r hr => .inl ((hw.sameFlags.current r).symm.trans hr)⟩
  | assign t domain stamp hcl hw hm hfree =>
    rw [hs] at hw hm ⊢
    rw [hf] at hw hm
    obtain ⟨h₁, h₂, h₃⟩ := hw.left hi hl
    have hti := hw.index hi
    have hpos : 0 < t.budget := hm rfl rfl
    have ha := h₁.advance hti (Nat.add_pos_left hpos more) true
    rw [Nat.sub_add_comm hpos, ← t.advance_budget] at ha
    have hx := hw.assigned domain stamp
    have hfresh : t.fresh = p.fresh := by rw [hw.frame]
    refine ⟨⟨ha.last, ha.le⟩, ?_, Nat.le_succ_of_le h₃, fun r hr => ?_⟩
    · show t.advanced + 1 + (t.budget - 1) = _
      omega
    have hlook : (t.byOffset.insert t.next t.fresh).lookup
        (((t.advance true).assign true domain t.next stamp).heap r).offset = some r := (current_iff _ r).mp hr
    by_cases hrf : r = p.fresh
    · right
      rw [hx, if_pos hrf]
      exact ⟨hcl, h₁.next hti (Nat.add_pos_left hpos more)⟩
    left
    rw [hx, if_neg hrf, hfresh, hw.byOffset] at hlook
    have hne : (p.heap r).offset ≠ t.next := by
      intro he
      rw [he, AList.lookup_insert] at hlook
      exact hrf (some.inj hlook).symm
    rw [AList.lookup_insert_ne hne] at hlook
    exact (p.current_iff r).mpr hlook

theorem Query.exhausted (hb : p.budget = 0) :
    q.budget = 0 ∧ ∀ r, q.current r = true → p.current r = true := by
  cases h with
  | keep => exact ⟨hb, fun _ h => h⟩
  | touch k stamp => exact ⟨hb, fun r hr => ((p.sameIndex_touch k stamp).current r).symm.trans hr⟩
  | walk q _ hw =>
    rw [hs, hf] at hw
    rw [hw.exhausted hb]
    exact ⟨hb, fun _ h => h⟩
  | assign t domain stamp _ hw hm =>
    rw [hs, hf] at hw hm
    rw [hw.exhausted hb] at hm
    have := hm rfl rfl
    omega

theorem Query.spare (hi : p.Index) (hp : p.Spare) :
    q.Spare ∧ ∀ r, q.current r = true → p.current r = true ∨
      (s.closed = false ∧ q.reserved = true ∧ q.Inside q.reserveLast (q.heap r).offset) := by
  obtain ⟨hr, hrl⟩ := h.reserve
  cases hres : p.reserved with
  | false =>
    obtain ⟨hb, hc⟩ := h.exhausted hs hf (hp.unreserved hres)
    exact ⟨⟨fun _ => hb, fun ht => by rw [hr, hres] at ht; cases ht⟩, fun r hr => .inl (hc r hr)⟩
  | true =>
    have hleft : p.Left p.reserveLast (p.budget + 0) := hp.reserved hres
    obtain ⟨h₁, _, _, h₄⟩ := h.left hs hf hi hleft
    refine ⟨⟨(fun ht => by rw [hr, hres] at ht; cases ht), fun _ => hrl ▸ h₁⟩, fun r hc => ?_⟩
    rcases h₄ r hc with hc | ⟨hcl, hin⟩
    · exact .inl hc
    · exact .inr ⟨hcl, hr.trans hres, hrl ▸ hin⟩

theorem Query.planned {plan : PoolPlan} (hi : p.Index) (hp : p.Planned plan) :
    q.Planned plan ∧ Query.Gives s p q plan.last := by
  obtain ⟨more, hl, hm⟩ := hp
  obtain ⟨h₁, h₂, h₃, h₄⟩ := h.left hs hf hi hl
  obtain ⟨hr, hrl⟩ := h.reserve
  refine ⟨⟨more, h₁, ?_⟩, h₄⟩
  rw [h.net]
  split at hm
  · rw [hr, hrl]
    exact hm
  · omega

end

/-- A record that was there has the same flags, and was used if it has another time of use. -/
theorem Query.old (hs : s.saved = true) (hn : named) (hi : p.Index) {r : Nat} (hr : p.current r = true) :
    (q.heap r).dirty = (p.heap r).dirty ∧ (q.heap r).removing = (p.heap r).removing ∧
      (q.heap r).offset = (p.heap r).offset ∧ ((q.heap r).lastUse = (p.heap r).lastUse ∨ used r) := by
  have hflags : (q.heap r).dirty = (p.heap r).dirty ∧ (q.heap r).removing = (p.heap r).removing ∧
      (q.heap r).offset = (p.heap r).offset := by
    rcases h.flags hs hn hi with h | ⟨k, o, h⟩
    · exact ⟨h.isDirty r, h.removing r, h.offset r⟩
    · rw [(h.old hr).2]
      exact ⟨rfl, rfl, rfl⟩
  refine ⟨hflags.1, hflags.2.1, hflags.2.2, ?_⟩
  cases h with
  | keep => exact .inl rfl
  | touch k stamp hk =>
    by_cases hrk : r = k
    · exact .inr (hrk ▸ hk)
    · rw [Pool.touch, p.update_other k _ hrk]
      exact .inl rfl
  | walk q _ hw => rw [hw.frame]; exact .inl rfl
  | assign t domain stamp _ hw =>
    rw [hw.assigned, if_neg (heap_lt hi ((p.current_iff r).mp hr))]
    exact .inl rfl

end

end

/-- The position and the reserve are the same. -/
structure SameReserve (p q : Pool) : Prop where
  net : q.net = p.net
  next : q.next = p.next
  advanced : q.advanced = p.advanced
  budget : q.budget = p.budget
  reserved : q.reserved = p.reserved
  reserveLast : q.reserveLast = p.reserveLast

section
variable {p q : Pool} {plan : PoolPlan}

theorem SameReserve.left (h : SameReserve p q) {last count : Nat} (hl : p.Left last count) : q.Left last count where
  last := by rw [h.net, h.next]; exact hl.last
  le := by rw [h.net]; exact hl.le

theorem SameReserve.spare (h : SameReserve p q) (hp : p.Spare) : q.Spare where
  unreserved := by rw [h.reserved, h.budget]; exact hp.unreserved
  reserved := by rw [h.reserved, h.reserveLast, h.budget]; exact fun hr => h.left (hp.reserved hr)

theorem SameReserve.planned (h : SameReserve p q) (hp : p.Planned plan) : q.Planned plan := by
  obtain ⟨more, hl, hm⟩ := hp
  refine ⟨more, by rw [h.budget]; exact h.left hl, ?_⟩
  rw [h.reserved, h.reserveLast, h.advanced, h.budget, h.net]
  exact hm

theorem sameReserve_snapshot (p : Pool) (clean room : Bool) (visit : List Nat) (tick : Nat) :
    SameReserve p (p.snapshot clean room visit tick).1 ∧
      (p.snapshot clean room visit tick).2.last = (p.savePosition clean).1 ∧
      (p.snapshot clean room visit tick).2.reserve = (p.savePosition clean).2 := by
  have hf := ((p.chooseRoom room visit tick).markRemovals_marking clean).frame
  rw [p.chooseRoom_frame room visit tick] at hf
  have hsame : SameReserve p ((p.chooseRoom room visit tick).markRemovals clean).1 := by
    rw [p.chooseRoom_frame room visit tick, hf]
    exact ⟨rfl, rfl, rfl, rfl, rfl, rfl⟩
  have hpos : ((p.chooseRoom room visit tick).markRemovals clean).1.savePosition clean = p.savePosition clean := by
    rw [p.chooseRoom_frame room visit tick, hf]
    rfl
  exact ⟨⟨hsame.net, hsame.next, hsame.advanced, hsame.budget, hsame.reserved, hsame.reserveLast⟩,
    congrArg Prod.fst hpos, congrArg Prod.snd hpos⟩

theorem Spare.planned (hp : p.Spare) (hl : plan.last = (p.savePosition false).1)
    (hr : plan.reserve = (p.savePosition false).2) : p.Planned plan := by
  have hb : p.budget ≤ p.net.step := by
    cases hres : p.reserved with
    | false => rw [hp.unreserved hres]; exact Nat.zero_le _
    | true => exact (hp.reserved hres).le
  have hstep := p.net.step_pos
  simp only [savePosition, Bool.false_eq_true, if_false] at hl hr
  split at hl
  next hopen =>
    rw [if_pos hopen] at hr
    refine ⟨p.net.step - p.budget, ⟨?_, by omega⟩, ?_⟩
    · rw [hl, Nat.add_sub_cancel' hb, Nat.sub_add_comm hstep]
      exact (Ring.ahead_add_size _ _).symm
    · rw [hr]
      exact ⟨le_refl _, by omega⟩
  next hopen =>
    rw [if_neg hopen] at hr
    simp only [Bool.or_eq_true, Bool.not_eq_true', not_or, Bool.not_eq_false] at hopen
    have hres := hopen.1.1
    refine ⟨0, by rw [hl]; exact hp.reserved hres, ?_⟩
    rw [hr]
    exact ⟨rfl, hres, hl.symm⟩

theorem sameReserve_finishRemoval (h : SameReserve p q) (c : Removal) : SameReserve p (q.finishRemoval c) := by
  rw [(q.finished c).frame]
  exact ⟨h.net, h.next, h.advanced, h.budget, h.reserved, h.reserveLast⟩

/-- Completing a save opens the reserve it has written. -/
theorem complete_reserve (p : Pool) (plan : PoolPlan) : ∃ q, SameReserve p q ∧
    p.complete plan = q.openReserve plan.reserve plan.last := by
  refine ⟨_, foldl_keep (f := finishRemoval) (SameReserve p) (fun q c _ h => sameReserve_finishRemoval h c) ?_,
    rfl⟩
  rw [foldl_settle]
  exact ⟨rfl, rfl, rfl, rfl, rfl, rfl⟩

theorem Planned.complete (hp : p.Spare) (h : p.Planned plan) :
    (p.complete plan).Spare ∧ (p.complete plan).reserved = true ∧ (p.complete plan).reserveLast = plan.last := by
  obtain ⟨q, hs, he⟩ := p.complete_reserve plan
  obtain ⟨more, hl, hm⟩ := hs.planned h
  rw [he]
  unfold openReserve
  cases hn : plan.reserve with
  | none =>
    rw [hn] at hm
    exact ⟨hs.spare hp, hm.2.1, hm.2.2⟩
  | some start =>
    rw [hn] at hm
    dsimp only at hm
    have hb : q.net.step - min (q.advanced - start) q.net.step = q.budget + more := by omega
    refine ⟨⟨nofun, fun _ => ?_⟩, rfl, rfl⟩
    dsimp only
    rw [hb]
    exact ⟨hl.last, hl.le⟩

theorem Spare.complete (hp : p.Spare) (h : plan.reserve = none) : (p.complete plan).Spare := by
  obtain ⟨q, hs, he⟩ := p.complete_reserve plan
  rw [he, h]
  exact hs.spare hp

end
end Pool

/-- The position a load would go on from, saved for this very range. -/
def Disk.position (d : Disk) (f : Family) (n : Prefix) : Option Nat :=
  d.metadata.bind fun m => if m.range f = some n then (m.current f).bind n.offset else none

/-- The store was not stopped, and the offset is one of the `step` offsets that
end at the saved position. -/
def Disk.Reserves (d : Disk) (f : Family) (n : Prefix) (o : Nat) : Prop :=
  d.clean = none ∧ ∃ last, d.position f n = some last ∧ Ring.Mem firstOffset n.usable last ∧
    Ring.Window firstOffset n.usable last n.step o

variable {past : List (Sys × Label)} {f : Family} {r : Nat} {p : Pool}

theorem Disk.position_eq {d : Disk} {n : Prefix} {m : Metadata} {last : Nat} (hc : d.clean = none)
    (hm : d.cursor = some m) (hr : m.range f = some n) (hp : m.current f = some (n.address last))
    (hl : last < n.stop) : d.position f n = some last := by
  simp [position, metadata, hc, hm, hr, hp, n.offset_address hl]

/-- The record was used while a save had marked it for removal. -/
def UsedInRemoval (past : List (Sys × Label)) (f : Family) (r : Nat) : Prop :=
  ∃ e ∈ past, e.1.uses e.2 f r ∧ ∃ p, e.1.store.pool f = some p ∧ (p.heap r).removing = true

theorem UsedInRemoval.later (h : UsedInRemoval past f r) (e : Sys × Label) : UsedInRemoval (e :: past) f r := by
  obtain ⟨e', he, hrest⟩ := h
  exact ⟨e', List.mem_cons_of_mem e he, hrest⟩

/-- A record that is still to be written, other than one a removal had to spare. -/
def Pool.Exposed (p : Pool) (spared : Nat → Prop) (r : Nat) : Prop :=
  p.current r = true ∧ (p.heap r).dirty = true ∧ (p.heap r).removing = false ∧ ¬ spared r

theorem Pool.Exposed.earlier {e : Sys × Label} (h : p.Exposed (UsedInRemoval (e :: past) f) r) :
    p.Exposed (UsedInRemoval past f) r :=
  ⟨h.1, h.2.1, h.2.2.1, fun hu => h.2.2.2 (hu.later e)⟩

/-- What protects the records of a range that are still to be written, when no write is being completed. -/
structure Pool.Protected (d : Disk) (f : Family) (settled : Bool) (spared : Nat → Prop) (p : Pool) : Prop where
  remembered : p.forgotten = []
  spare : p.Spare
  placed : d.clean = none → settled = true → p.reserved = true → d.position f p.net = some p.reserveLast
  safe : settled = true → ∀ r, p.Exposed spared r → d.Reserves f p.net (p.heap r).offset

/-- What a save has planned for a range protects what it does not write. -/
structure Pool.Leaves (plan : Plan) (f : Family) (pp : PoolPlan) (spared : Nat → Prop) (p : Pool) : Prop where
  range : plan.metadata.range f = some p.net
  current : plan.metadata.current f = some (p.net.address pp.last)
  planned : if plan.request.clean then pp.reserve = none else p.Planned pp
  passed : ∀ r, p.Exposed spared r → r ∈ pp.written ∨ (plan.request.clean = false ∧ p.Inside pp.last (p.heap r).offset)
  spared : ∀ c ∈ pp.removals, (p.heap c.record).lastUse = c.lastUse ∨ spared c.record

theorem Pool.Leaves.unclean {plan : Plan} {pp : PoolPlan} {spared : Nat → Prop} (h : p.Leaves plan f pp spared)
    (hc : plan.request.clean = false) : p.Planned pp := by
  have hp := h.planned
  rwa [hc, if_neg Bool.false_ne_true] at hp

/-- What protects the records that are still to be written, in a run in which
every write succeeds. -/
structure Sys.Guarded (past : List (Sys × Label)) (x : Sys) : Prop where
  agreed : x.Agreed
  generation : x.store.generation = x.disk.generation
  working : x.store.storageFailed = false
  succeeded : ∀ plan, x.phase ≠ .written plan false
  kept : x.phase ≠ .resetting
  stopped : x.disk.clean ≠ none → x.store.closed = true
  stopping : ∀ r g, x.phase = .started r g → r.clean = true → x.store.closed = true
  last : ∀ plan, x.phase.taken = some plan → plan.request.clean = true → x.store.closed = true ∧
    (x.phase = .written plan true → x.disk.clean ≠ none)
  going : ∀ plan, x.phase.taken = some plan → plan.request.clean = false → x.disk.clean = none
  pools : ∀ f p, x.store.pool f = some p → p.Protected x.disk f x.phase.settled (UsedInRemoval past f)
  plans : ∀ plan, x.phase.taken = some plan → ∀ f p pp, x.store.pool f = some p → plan.pools f = some pp →
    p.Leaves plan f pp (UsedInRemoval past f)
  moved : ∀ plan, x.phase = .written plan true → plan.request.clean = false → ∀ f p pp,
    x.store.pool f = some p → plan.pools f = some pp → x.disk.position f p.net = some pp.last

theorem Loaded.guarded {cfg : Config} {x : Sys} (h : Loaded cfg x) : x.Guarded [] := by
  have ha := h.agreed
  obtain ⟨d, rfl⟩ := h
  have hr := Store.rows_foldl cfg d.generation d.rows
  have hpl : ∀ f p, (Sys.loaded cfg d).store.pool f = some p → p.Plain cfg.casing.lower :=
    fun f p hp => (loaded_from hp).1.plain
  obtain ⟨hgen, hfail⟩ : (Sys.loaded cfg d).store.generation = d.generation ∧
      (Sys.loaded cfg d).store.storageFailed = false := by
    show (d.rows.foldl Store.loadRow (Store.new cfg true d.generation)).generation = _ ∧
      (d.rows.foldl Store.loadRow (Store.new cfg true d.generation)).storageFailed = _
    rw [hr.frame]
    exact ⟨rfl, rfl⟩
  have hdisk : (Sys.loaded cfg d).disk.generation = d.generation :=
    foldl_keep (f := Disk.delete) (fun d' : Disk => d'.generation = d.generation) (fun _ _ _ h => h) rfl
  refine ⟨ha, hgen.trans hdisk.symm, hfail, nofun, nofun, fun h => absurd rfl h, nofun, nofun, nofun,
    fun f p hp => ?_, nofun, nofun⟩
  have hp := hpl f p hp
  have hres : p.reserved ≠ true := hp.reserved ▸ Bool.false_ne_true
  refine ⟨hp.forgotten, ⟨fun _ => hp.budget, fun h => absurd h hres⟩, fun _ _ h => absurd h hres, fun _ r hex => ?_⟩
  rw [Pool.Exposed, hp.settled] at hex
  cases hex.2.1

namespace Sys

variable {x : Sys}

section
variable (hx : x.Guarded past)
include hx

theorem Guarded.phase_cases : (∃ plan, x.phase = .written plan true) ∨ x.phase.settled = true := by
  cases h : x.phase.settled with
  | true => exact .inr rfl
  | false => exact .inl ((Phase.of_not_settled h).resolve_left hx.kept)

/-- A step that leaves the ranges, up to the candidates for removal, and the storage. -/
theorem Guarded.frame (e : Sys × Label) {x' : Sys} (ha : x'.Agreed)
    (hpool : ∀ f q, x'.store.pool f = some q → ∃ p l, x.store.pool f = some p ∧ q = { p with expired := l })
    (hdisk : x'.disk = x.disk) (hgen : x'.store.generation = x.store.generation)
    (hfail : x'.store.storageFailed = x.store.storageFailed) (hcl : x.store.closed = true → x'.store.closed = true)
    (ht : x'.phase.taken = x.phase.taken) (hw : ∀ plan ok, x'.phase = .written plan ok ↔ x.phase = .written plan ok)
    (hres : x'.phase ≠ .resetting) (hst : ∀ r g, x'.phase = .started r g → r.clean = true → x'.store.closed = true) :
    x'.Guarded (e :: past) := by
  have hset : x'.phase.settled = true → x.phase.settled = true := by
    intro h
    rcases hx.phase_cases with ⟨plan, hph⟩ | hs
    · rw [(hw plan true).mpr hph] at h
      cases h
    · exact hs
  refine ⟨ha, by rw [hgen, hdisk]; exact hx.generation, hfail.trans hx.working,
    fun plan h => hx.succeeded plan ((hw plan false).mp h), hres, fun h => hcl (hx.stopped (hdisk ▸ h)), hst, ?_,
    fun plan h hc => hdisk ▸ hx.going plan (ht ▸ h) hc, ?_, ?_, ?_⟩
  · intro plan h hc
    obtain ⟨h₁, h₂⟩ := hx.last plan (ht ▸ h) hc
    exact ⟨hcl h₁, fun h => hdisk ▸ h₂ ((hw plan true).mp h)⟩
  · intro f q hq
    obtain ⟨p, l, hp, rfl⟩ := hpool f q hq
    have h := hx.pools f p hp
    rw [hdisk]
    exact ⟨h.remembered, ⟨h.spare.unreserved, fun hr => ⟨(h.spare.reserved hr).last, (h.spare.reserved hr).le⟩⟩,
      fun hc hs => h.placed hc (hset hs), fun hs r hr => h.safe (hset hs) r hr.earlier⟩
  · intro plan ht' f q pp hq hpp
    obtain ⟨p, l, hp, rfl⟩ := hpool f q hq
    have h := hx.plans plan (ht ▸ ht') f p pp hp hpp
    refine ⟨h.range, h.current, ?_, fun r hr => h.passed r hr.earlier,
      fun c hc => (h.spared c hc).imp_right (·.later e)⟩
    have hpl := h.planned
    split_ifs at hpl ⊢
    · exact hpl
    · exact Pool.SameReserve.planned (p := p) ⟨rfl, rfl, rfl, rfl, rfl, rfl⟩ hpl
  · intro plan h hc f q pp hq hpp
    obtain ⟨p, l, hp, rfl⟩ := hpool f q hq
    rw [hdisk]
    exact hx.moved plan ((hw plan true).mp h) hc f p pp hp hpp

theorem Guarded.query {l : Label} {s : Store} (hn : l.named) (hq : x.store.Queried l.named (x.uses l) s)
    (ha : Agreed { x with store := s }) :
    Guarded ((x, l) :: past) { x with store := s } := by
  have hs := hx.agreed.marks.saved
  have hi := fun f p hp => (hx.agreed.marks.indexed f p hp).1
  have hold : ∀ f p q r, x.store.pool f = some p → p.Query x.store l.named (x.uses l f) q → p.current r = true →
      q.Exposed (UsedInRemoval ((x, l) :: past) f) r →
      p.Exposed (UsedInRemoval past f) r ∧ (q.heap r).offset = (p.heap r).offset := by
    intro f p q r hp hpq hr hex
    obtain ⟨h₁, h₂, h₃, _⟩ := hpq.old hs hn (hi f p hp) hr
    exact ⟨⟨hr, h₁ ▸ hex.2.1, h₂ ▸ hex.2.2.1, fun hu => hex.2.2.2 (hu.later _)⟩, h₃⟩
  refine ⟨ha, hq.generation.trans hx.generation, hq.storageFailed.trans hx.working, hx.succeeded, hx.kept,
    fun h => hq.closed.trans (hx.stopped h), fun r g h hc => hq.closed.trans (hx.stopping r g h hc),
    fun plan h hc => ⟨hq.closed.trans (hx.last plan h hc).1, (hx.last plan h hc).2⟩, hx.going, ?_, ?_, ?_⟩
  · intro f q hp
    obtain ⟨p, hp, hpq⟩ := hq.pool_some hp
    have h := hx.pools f p hp
    obtain ⟨hsp, hgive⟩ := hpq.spare hs hx.working (hi f p hp) h.spare
    refine ⟨hpq.forgotten.trans h.remembered, hsp, fun hc hw hr => ?_, fun hw r hr => ?_⟩
    · rw [hpq.reserve.2, hpq.net]
      exact h.placed hc hw (hpq.reserve.1 ▸ hr)
    rw [hpq.net]
    rcases hgive r hr.1 with hc | ⟨hcl, hres, hin⟩
    · obtain ⟨hex, ho⟩ := hold f p q r hp hpq hc hr
      rw [ho]
      exact h.safe hw r hex
    -- a new record: the store is open, so there was no clean stop
    have hclean : x.disk.clean = none := by
      by_contra h
      rw [hx.stopped h] at hcl
      cases hcl
    have hres' : p.reserved = true := hpq.reserve.1 ▸ hres
    refine ⟨hclean, p.reserveLast, h.placed hclean hw hres', (h.spare.reserved hres').mem (hi f p hp), ?_⟩
    rw [← hpq.net, ← hpq.reserve.2]
    exact hin
  · intro plan ht f q pp hp hpp
    obtain ⟨p, hp, hpq⟩ := hq.pool_some hp
    have h := hx.plans plan ht f p pp hp hpp
    refine ⟨hpq.net ▸ h.range, hpq.net ▸ h.current, ?_, fun r hr => ?_, fun c hc => ?_⟩
    · have hpl := h.planned
      split_ifs at hpl ⊢
      · exact hpl
      · exact (hpq.planned hs hx.working (hi f p hp) hpl).1
    · have hpass : p.current r = true →
          r ∈ pp.written ∨ (plan.request.clean = false ∧ q.Inside pp.last (q.heap r).offset) := by
        intro hc
        obtain ⟨hex, ho⟩ := hold f p q r hp hpq hc hr
        rw [ho, Pool.Inside, hpq.net]
        exact h.passed r hex
      rcases (hpq.spare hs hx.working (hi f p hp) (hx.pools f p hp).spare).2 r hr.1 with hc | ⟨hcl, _⟩
      · exact hpass hc
      have hclean : plan.request.clean = false := by
        refine Bool.eq_false_iff.mpr fun hc => ?_
        rw [(hx.last plan ht hc).1] at hcl
        cases hcl
      rcases (hpq.planned hs hx.working (hi f p hp) (h.unclean hclean)).2 r hr.1 with hc | ⟨_, hin⟩
      · exact hpass hc
      · exact .inr ⟨hclean, hin⟩
    · have hma := hx.agreed.marks.marked_at ht hp hpp
      rcases (hpq.old hs hn (hi f p hp) (hma.removal c hc).1).2.2.2 with hl | hu
      · rw [hl]
        exact (h.spared c hc).imp_right fun hu => hu.later _
      · exact .inr ⟨(x, l), List.mem_cons_self, hu, p, hp, (hma.marked c.record).mpr ⟨c, hc, rfl⟩⟩
  · intro plan h hc f q pp hp hpp
    obtain ⟨p, hp, hpq⟩ := hq.pool_some hp
    rw [hpq.net]
    exact hx.moved plan h hc f p pp hp hpp

/-- The changes are collected, with the position that covers what is not among them. -/
theorem Guarded.collect {r : Request} {g : Nat} {visit : Family → List Nat} {tick : Nat}
    (hph : x.phase = .started r g) (hcl : x.store.closed = true → r.clean = true) {ph : Phase}
    (hcase : ph = .idle ∨ ph = .collected (x.store.plan r visit tick).2)
    (ha : Agreed { x with store := (x.store.plan r visit tick).1, phase := ph }) (l : Label) :
    Guarded ((x, l) :: past) { x with store := (x.store.plan r visit tick).1, phase := ph } := by
  have hw : x.phase.settled = true := by rw [hph]; rfl
  have hquiet : ∀ f p, x.store.pool f = some p → p.Quiet x.store.casing.lower :=
    hx.agreed.marks.quiet (by rw [hph]; rfl)
  have hplan : ∀ plan, ph.taken = some plan → plan = (x.store.plan r visit tick).2 := by
    rintro plan h
    rcases hcase with rfl | rfl <;> cases h
    rfl
  have hnw : ∀ plan ok, ph ≠ .written plan ok := by
    rintro plan ok rfl
    rcases hcase with h | h <;> cases h
  have hsafe : r.clean = false → x.disk.clean = none := by
    intro hc
    by_contra h
    rw [hcl (hx.stopped h)] at hc
    cases hc
  refine ⟨ha, hx.generation, hx.working, fun plan => hnw plan false, ?_, hx.stopped, ?_, ?_, ?_, ?_, ?_,
    fun plan h => absurd h (hnw plan true)⟩
  · rintro rfl
    rcases hcase with h | h <;> cases h
  · rintro r' g' rfl
    rcases hcase with h | h <;> cases h
  · intro plan h hc
    rw [hplan plan h] at hc
    exact ⟨hx.stopping r g hph hc, fun h => absurd h (hnw plan true)⟩
  · intro plan h hc
    rw [hplan plan h] at hc
    exact hsafe hc
  · intro f q hq
    obtain ⟨p, hp, rfl, _⟩ := Store.plan_pool hq
    have h := hx.pools f p hp
    have hs := (p.sameReserve_snapshot r.clean (r.roomOf f) (visit f) tick).1
    have hrows := p.sameRows_snapshot r.clean (r.roomOf f) (visit f) tick
    have hi := p.sameIndex_snapshot r.clean (r.roomOf f) (visit f) tick
    refine ⟨hrows.forgotten.trans h.remembered, hs.spare h.spare, fun hc _ hr => ?_, fun _ k hk => ?_⟩
    · rw [hs.net, hs.reserveLast]
      exact h.placed hc hw (hs.reserved ▸ hr)
    · rw [hs.net, hrows.offset]
      exact h.safe hw k ⟨(hi.current k).symm.trans hk.1, hrows.dirty k ▸ hk.2.1, (hquiet f p hp).unmarked k,
        fun hu => hk.2.2.2 (hu.later _)⟩
  · intro plan h f q pp hq hpp
    obtain ⟨p, hp, rfl, hpp'⟩ := Store.plan_pool hq
    cases hplan plan h
    rw [hpp] at hpp'
    cases hpp'
    obtain ⟨hs, hlast, hres⟩ := p.sameReserve_snapshot r.clean (r.roomOf f) (visit f) tick
    refine ⟨by simp [Store.plan, hp, hs.net], by simp [Store.plan, hp], ?_, fun k hk => .inl ?_,
      fun c hc => .inl (p.snapshot_unused r.clean (r.roomOf f) (visit f) tick hc)⟩
    · show if r.clean = true then _ else _
      split
      next hc =>
        rw [hres, hc]
        rfl
      next hc =>
        rw [Bool.eq_false_iff.mpr hc] at hs hlast hres ⊢
        exact hs.planned ((hx.pools f p hp).spare.planned hlast hres)
    · -- what is to be written was collected, or is to be removed
      have hma := (hquiet f p hp).snapshot (hx.agreed.marks.indexed f p hp).1 r.clean (r.roomOf f) (visit f) tick
      rcases hma.queued k hk.1 hk.2.1 with hd | hd
      · have hr := p.snapshot_queue r.clean (r.roomOf f) (visit f) tick hd
        rw [hk.2.2.1] at hr
        cases hr
      · exact hd

theorem Guarded.write {plan : Plan} (hph : x.phase = .collected plan) (ha : Agreed { x with
      disk := x.disk.saveChanges plan.puts plan.deletes plan.metadata plan.request.clean
      phase := .written plan true }) (l : Label) :
    Guarded ((x, l) :: past) { x with
      disk := x.disk.saveChanges plan.puts plan.deletes plan.metadata plan.request.clean
      phase := .written plan true } := by
  have ht : x.phase.taken = some plan := by rw [hph]; rfl
  have hclean : (x.disk.saveChanges plan.puts plan.deletes plan.metadata plan.request.clean).clean =
      if plan.request.clean then some plan.metadata else none := rfl
  refine ⟨ha, hx.generation.trans (x.disk.saveChanges_generation _ _ _ _).symm, hx.working, nofun, nofun, ?_, nofun,
    ?_, ?_, fun f p hp => ⟨(hx.pools f p hp).remembered, (hx.pools f p hp).spare, nofun, nofun⟩, ?_, ?_⟩
  · intro h
    rw [hclean] at h
    split at h
    next hc => exact (hx.last plan ht hc).1
    · exact absurd rfl h
  · rintro _ ⟨⟩ hc
    refine ⟨(hx.last plan ht hc).1, fun _ => ?_⟩
    rw [hclean, if_pos hc]
    nofun
  · rintro _ ⟨⟩ hc
    dsimp only
    rw [hclean, if_neg (by rw [hc]; exact Bool.false_ne_true)]
  · rintro _ ⟨⟩ f p pp hp hpp
    have h := hx.plans plan ht f p pp hp hpp
    exact ⟨h.range, h.current, h.planned, fun r hr => h.passed r hr.earlier,
      fun c hc => (h.spared c hc).imp_right fun hu => hu.later _⟩
  · rintro _ ⟨⟩ hc f p pp hp hpp
    have h := hx.plans plan ht f p pp hp hpp
    obtain ⟨more, hl, _⟩ := h.unclean hc
    have hi := (hx.agreed.marks.indexed f p hp).1
    refine Disk.position_eq ?_ rfl h.range h.current (Pool.mem_lt_stop hi (hl.mem hi))
    rw [hclean, if_neg (by rw [hc]; exact Bool.false_ne_true)]

theorem Guarded.complete {plan : Plan} (hph : x.phase = .written plan true)
    (ha : Agreed { x with store := x.store.complete plan, phase := .idle }) (l : Label) :
    Guarded ((x, l) :: past) { x with store := x.store.complete plan, phase := .idle } := by
  have ht : x.phase.taken = some plan := by rw [hph]; rfl
  -- with a clean stop no reserve is left, and none is needed
  have hunclean : x.disk.clean = none → plan.request.clean = false := by
    intro hc
    refine Bool.eq_false_iff.mpr fun h => ?_
    exact (hx.last plan ht h).2 hph hc
  refine ⟨ha, hx.generation, rfl, nofun, nofun, hx.stopped, nofun, nofun, nofun, fun f q hq => ?_, nofun, nofun⟩
  obtain ⟨p, hp, rfl⟩ := Store.complete_pool hq
  obtain ⟨pp, hpp, hma⟩ := rel_some (hx.agreed.marks.marked plan ht f) hp
  rw [hpp, Option.elim_some]
  have h := hx.plans plan ht f p pp hp hpp
  have hspare := (hx.pools f p hp).spare
  have hc := hma.completed
  refine ⟨hc.forgotten, ?_, fun hclean _ _ => ?_, fun _ r hr => ?_⟩
  · cases hclean : plan.request.clean with
    | false => exact ((h.unclean hclean).complete hspare).1
    | true =>
      have hnone := h.planned
      rw [if_pos hclean] at hnone
      exact hspare.complete hnone
  · have hcl := hunclean hclean
    rw [((h.unclean hcl).complete hspare).2.2, (p.thins_complete pp).net]
    exact hx.moved plan hph hcl f p pp hp hpp
  · have hoff : ((p.complete pp).heap r).offset = (p.heap r).offset := by rw [hc.record]
    by_cases hrem : (p.heap r).removing = true
    · -- it was to be removed and is still there, so it was used meanwhile
      obtain ⟨_, c, hmem, rfl, hne⟩ := hc.redone r hr.1 hrem (hc.unmarked r)
      exact absurd (((h.spared c hmem).resolve_left hne).later _) hr.2.2.2
    have hrem' := Bool.eq_false_iff.mpr hrem
    have hd := hr.2.1
    rw [hc.plain r hrem', Bool.and_eq_true, decide_eq_true_eq] at hd
    have hex : p.Exposed (UsedInRemoval past f) r :=
      ⟨hc.current hr.1, hd.1, hrem', fun hu => hr.2.2.2 (hu.later _)⟩
    obtain ⟨hcl, hin⟩ := (h.passed r hex).resolve_left hd.2
    obtain ⟨more, hl, _⟩ := h.unclean hcl
    rw [hoff, (p.thins_complete pp).net]
    exact ⟨hx.going plan ht hcl, pp.last, hx.moved plan hph hcl f p pp hp hpp,
      hl.mem (hx.agreed.marks.indexed f p hp).1, hin⟩

end

end Sys

/-- The label is neither a write that fails nor a change of the generation nor
part of `Reset`, and it does not ask for the root name. -/
def Label.calm : Label → Bool
  | .create _ domain _ => domain != ""
  | .allocate _ domain _ => domain != ""
  | .saveWrite ok => ok
  | .resetStorage _ | .resetMemory | .recreate => false
  | _ => true

theorem Label.calm.named {l : Label} (h : l.calm = true) : l.named := by
  cases l with
  | create | allocate => exact bne_iff_ne.mp h
  | _ => trivial

namespace Sys

variable {x x' : Sys} {l : Label}

theorem Guarded.move (hx : x.Guarded past) (hm : x.Move l x') (hl : l.calm = true) : x'.Guarded ((x, l) :: past) := by
  have hin : x.inPlace l = true := by
    unfold inPlace
    split
    next plan hph =>
      rw [beq_iff_eq, hx.agreed.taken plan (by rw [hph]; rfl)]
      exact hx.generation
    · rfl
  have ha := hx.agreed.move hm (Label.calm.named hl) hin
  have hsame : ∀ f q, x.store.pool f = some q → ∃ p l, x.store.pool f = some p ∧ q = { p with expired := l } :=
    fun f q hq => ⟨q, q.expired, hq, rfl⟩
  have hrenew : ∀ r g, x.phase = .started r g → x.store.renew g = x.store := by
    intro r g hph
    obtain ⟨h₁, h₂⟩ := hx.agreed.started r g hph
    exact if_pos (le_antisymm (hx.generation ▸ h₂) h₁)
  cases hm with
  | query l s _ hq => exact hx.query (Label.calm.named hl) hq ha
  | scan visit tick =>
    exact hx.frame _ ha hsame rfl rfl rfl id rfl (fun _ _ => Iff.rfl) hx.kept hx.stopping
  | sweep found hf =>
    refine hx.frame _ ha (fun f q hq => ?_) rfl rfl rfl id rfl (fun _ _ => Iff.rfl) hx.kept hx.stopping
    obtain ⟨p, hp, rfl⟩ := Store.expire_pool hx.agreed.marks.saved hq
    exact ⟨p, _, hp, rfl⟩
  | makeRoom f visit tick hs => rw [hx.agreed.marks.saved] at hs; cases hs
  | start r hp hc =>
    refine hx.frame _ ha hsame rfl rfl rfl id (by rw [hp]; rfl) (fun plan ok => ?_) nofun ?_
    · rw [hp]
      exact ⟨nofun, nofun⟩
    · rintro _ _ ⟨⟩
      exact hc
  | refuse r g visit tick hp =>
    refine hx.frame _ ha hsame rfl rfl rfl id (by rw [hp]; rfl) (fun plan ok => ?_) nofun nofun
    rw [hp]
    exact ⟨nofun, nofun⟩
  | spare r g visit tick hp =>
    rw [hrenew r g hp] at ha ⊢
    refine hx.frame _ ha hsame rfl rfl rfl id (by rw [hp]; rfl) (fun plan ok => ?_) nofun nofun
    rw [hp]
    exact ⟨nofun, nofun⟩
  | collect r g visit tick hp _ hcl =>
    rw [hrenew r g hp] at ha ⊢
    refine hx.collect hp hcl ?_ ha _
    split
    · exact .inl rfl
    · exact .inr rfl
  | write plan hp => exact hx.write hp ha _
  | complete plan hp => exact hx.complete hp ha _
  | abandon plan hp => exact absurd hp (hx.succeeded plan)
  | resetMemory hp => exact absurd hp hx.kept
  | close =>
    exact hx.frame _ ha hsame rfl rfl rfl (fun _ => rfl) rfl (fun _ _ => Iff.rfl) hx.kept fun _ _ _ _ => rfl
  | _ => cases hl

end Sys

theorem Disk.Reserves.loaded {cfg : Config} {d : Disk} {q : Pool} {o : Nat}
    (h : d.Reserves f q.net o) (hq : (Sys.loaded cfg d).store.pool f = some q) : q.byOffset.lookup o ≠ none := by
  obtain ⟨hclean, last, hpos, hmem, hwin⟩ := h
  obtain ⟨m, hm, hpos⟩ := bind_eq_some_iff.mp hpos
  rw [metadata, hclean] at hm
  obtain ⟨hr, hpos⟩ := ite_none_right_eq_some.mp hpos
  obtain ⟨a, hc, hoff⟩ := bind_eq_some_iff.mp hpos
  rw [(q.net.offset_eq_some hoff).2.2] at hc
  exact loaded_window hq hclean hm hr hc hmem hwin

section
variable {cfg : Config} {past : List (Sys × Label)} {x : Sys}

section
variable {f : Family} {p : Pool} {r : Nat} (hx : x.Guarded past) (hp : x.store.pool f = some p)
  (hr : p.current r = true)
include hx hp hr

/-- A row of the storage leads to the domain of the record that has its address. -/
theorem Sys.Guarded.row {w : String} (hw : p.rows x.disk (p.heap r).offset = some w) :
    x.store.casing.lower w = (p.heap r).domain := by
  have hlook := (p.current_iff r).mp hr
  have hmem := ((hx.agreed.marks.indexed f p hp).1.offset _ r hlook).2.2
  rcases hx.phase_cases with ⟨plan, hph⟩ | hset
  · obtain ⟨pp, hpp, _⟩ := rel_some (hx.agreed.marks.marked plan (by rw [hph]; rfl) f) hp
    obtain ⟨k, hk, _, hl, _⟩ := (hx.agreed.committed hx.generation plan hph f p pp hp hpp).row _ w hmem hw
    rw [hlook] at hk
    cases hk
    exact hl
  · have hag := hx.agreed.agrees hx.generation hset f p hp
    rcases hag.row _ w hmem hw with ⟨k, hk, _, _, hl⟩ | ⟨hf, _⟩
    · rw [hlook] at hk
      cases hk
      exact hl
    · rw [(hx.pools f p hp).remembered] at hf
      cases hf

/-- The record is in the storage, or its offset is reserved there. -/
theorem Sys.Guarded.covered (hd : (p.heap r).held = false) (hm : (p.heap r).removing = false)
    (hu : ¬ UsedInRemoval past f r) :
    (∃ w, p.rows x.disk (p.heap r).offset = some w ∧ x.store.casing.lower w = (p.heap r).domain) ∨
      x.disk.Reserves f p.net (p.heap r).offset := by
  rcases hx.phase_cases with ⟨plan, hph⟩ | hset
  · have ht : x.phase.taken = some plan := by rw [hph]; rfl
    obtain ⟨pp, hpp, _⟩ := rel_some (hx.agreed.marks.marked plan ht f) hp
    have hco := (hx.agreed.committed hx.generation plan hph f p pp hp hpp).stored r hr hd
    cases hdirty : (p.heap r).dirty with
    | false => exact .inl (hco (.inr ⟨hdirty, hm⟩))
    | true =>
      have h := hx.plans plan ht f p pp hp hpp
      rcases h.passed r ⟨hr, hdirty, hm, hu⟩ with hw | ⟨hc, hin⟩
      · exact .inl (hco (.inl hw))
      · obtain ⟨more, hl, _⟩ := h.unclean hc
        exact .inr ⟨hx.going plan ht hc, pp.last, hx.moved plan hph hc f p pp hp hpp,
          hl.mem (hx.agreed.marks.indexed f p hp).1, hin⟩
  · cases hdirty : (p.heap r).dirty with
    | false => exact .inl ((hx.agreed.agrees hx.generation hset f p hp).stored r hr hd hdirty)
    | true => exact .inr ((hx.pools f p hp).safe hset r ⟨hr, hdirty, hm, hu⟩)

end

section
variable (hrun : (machine (Loaded cfg)).Run past x)
include hrun

theorem guarded_run (hal : System.Along (fun _ l => l.calm = true) past) : x.Guarded past :=
  System.Run.invariant_past (fun _ h => Loaded.guarded h)
    (fun _ _ _ _ _ hx hl hs => hx.move (Sys.step_move hs) hl) hrun hal

theorem casing_run : x.store.casing = cfg.casing := by
  exact hrun.always (I := fun x => x.store.casing = cfg.casing) (fun _ h => Started.casing (.inr (Loaded.opened h)))
    fun _ _ _ hc hs => (Sys.step_move hs).casing.trans hc

theorem ranges_run {f : Family} {p : Pool} (hp : x.store.pool f = some p) : cfg.range f = some p.net := by
  have h := hrun.always (I := fun x => ∀ f p, x.store.pool f = some p → cfg.range f = some p.net)
    (fun x h f p hp => by obtain ⟨d, rfl⟩ := h; exact (loaded_from hp).2) ?_
  · exact h f p hp
  · intro s s' l hs hstep f q hq
    obtain ⟨t, ht, he⟩ := rel_some_right ((Sys.step_move hstep).extends f) hq
    rw [he.net]
    exact hs f t ht

end

end

/-- In every run without a failed write, at every instant, a record with a domain
is in the storage or reserved there, unless it is being removed or was used while
it was; a crash then leads its address to the same domain or holds it back. -/
theorem crash_keeps_address (cfg : Config) (past : List (Sys × Label)) (x : Sys)
    (hrun : (machine (Loaded cfg)).Run past x) (hal : System.Along (fun _ l => l.calm = true) past)
    (f : Family) (p : Pool) (r : Nat) (hp : x.store.pool f = some p) (hr : p.current r = true)
    (hd : (p.heap r).held = false) (hm : (p.heap r).removing = false) (hu : ¬ UsedInRemoval past f r) :
    ((∃ w, x.disk.table.lookup (p.net.address (p.heap r).offset) = some w ∧
        cfg.casing.lower w = (p.heap r).domain) ∨
      x.disk.Reserves f p.net (p.heap r).offset) ∧
    ∃ q k, (Sys.loaded cfg x.disk).store.pool f = some q ∧ q.net = p.net ∧
      q.byOffset.lookup (p.heap r).offset = some k ∧
      ((q.heap k).held = true ∨ (q.heap k).domain = (p.heap r).domain) := by
  have hx := guarded_run hrun hal
  have hcas := casing_run hrun
  have hcov := hx.covered hp hr hd hm hu
  rw [hcas] at hcov
  obtain ⟨q, hq, hnet⟩ := loaded_range x.disk (ranges_run hrun hp)
  have hfrom := (loaded_from hq).1
  have hmem := ((hx.agreed.marks.indexed f p hp).1.offset _ r ((p.current_iff r).mp hr)).2.2
  have hled : q.byOffset.lookup (p.heap r).offset ≠ none := by
    rcases hcov with ⟨w, hw, hdom⟩ | hres
    · have hne : w ≠ "" := by
        rintro rfl
        rw [(cfg.casing.lower_eq_empty "").mpr rfl] at hdom
        rw [Record.held, ← hdom] at hd
        cases hd
      obtain ⟨k, hk, _⟩ := hfrom.row _ w (hnet ▸ hmem) (hnet ▸ hw) hne
      rw [hk]
      exact some_ne_none k
    · exact Disk.Reserves.loaded (hnet ▸ hres) hq
  obtain ⟨k, hk⟩ := ne_none_iff_exists'.mp hled
  refine ⟨hcov, q, k, hq, hnet, hk, ?_⟩
  cases hheld : (q.heap k).held with
  | true => exact .inl rfl
  | false =>
    right
    obtain ⟨w, hw, hdom⟩ := hfrom.record _ k hk hheld
    rw [hnet] at hw
    rw [← hdom, ← hcas]
    exact hx.row hp hr hw

/-- A new domain before its row is written, with the reserve open. -/
theorem crash_keeps_address_slash30 :
    ∃ x p, loadedRun slash30
        [.saveStart {}, .saveCollect (fun _ => []) 864002, .saveWrite true, .saveComplete,
          .allocate .inet4 "a" 864003] = some x ∧
      x.store.pool .inet4 = some p ∧ x.disk.table.lookup (p.net.address 2) = none ∧
      x.disk.Reserves .inet4 p.net 2 := by
  let ls : List Label := [.saveStart {}, .saveCollect (fun _ => []) 864002, .saveWrite true, .saveComplete,
    .allocate .inet4 "a" 864003]
  have h : (loadedRun slash30 ls).any (fun x => (x.store.pool .inet4).any fun p =>
      p.current 0 && p.heap 0 == ⟨"a", 2, 864003 * 2 ^ 32 + 1, true, false⟩ &&
        x.disk.table.lookup (p.net.address 2) == none) = true := by decide +kernel
  simp only [any_eq_true, Bool.and_eq_true, beq_iff_eq] at h
  obtain ⟨x, hx, p, hp, ⟨hc, hr⟩, ht⟩ := h
  have hu : ¬ UsedInRemoval ((machine (Loaded slash30)).trace ls (.loaded slash30 ⟨∅, none, none, 0⟩) [])
      .inet4 0 := by
    have hall : ((machine (Loaded slash30)).trace ls (.loaded slash30 ⟨∅, none, none, 0⟩) []).all
        (fun e => (e.1.store.pool .inet4).all fun p => !(p.heap 0).removing) = true := by decide +kernel
    rintro ⟨e, he, _, q, hq, hrem⟩
    have h := List.all_eq_true.mp hall e he
    rw [hq, all_some, hrem] at h
    cases h
  have hsafe := (crash_keeps_address slash30 _ x (loadedRun_run hx)
    (System.along_exec (by decide +kernel)) .inet4 p 0 hp hc (by rw [hr]; rfl)
    (by rw [hr]) hu).1
  rw [hr] at hsafe
  refine ⟨x, p, hx, hp, ht, hsafe.resolve_left ?_⟩
  rintro ⟨w, hw, _⟩
  rw [ht] at hw
  cases hw

/-- `savePending`. -/
def Sys.savePending (x : Sys) : Bool :=
  x.disk.generation != x.store.generation || [Family.inet4, .inet6].any fun f => (x.store.pool f).any fun p =>
    !p.dirty.isEmpty || !p.expired.isEmpty || !p.forgotten.isEmpty || !p.reserved || decide (p.budget < p.net.step / 2)

theorem Sys.savePending_eq_false {x : Sys} (h : x.savePending = false) :
    x.store.generation = x.disk.generation ∧ ∀ f p, x.store.pool f = some p → p.dirty = [] ∧ p.forgotten = [] := by
  simp only [savePending, Bool.or_eq_false_iff, bne_eq_false_iff_eq, List.any_eq_false] at h
  refine ⟨h.1.symm, fun f p hp => ?_⟩
  have hf := h.2 f (by cases f <;> simp)
  rw [hp] at hf
  simp only [Option.any_some, Bool.or_eq_true, not_or] at hf
  obtain ⟨⟨⟨⟨hdirty, _⟩, hforgotten⟩, _⟩, _⟩ := hf
  exact ⟨by simpa using hdirty, by simpa using hforgotten⟩

/-- With nothing left to save, a store that is killed and started again on its file has the same pairs. -/
theorem restart_keeps_pairs (cfg : Config) (past : List (Sys × Label)) (x : Sys)
    (hrun : (machine (Loaded cfg)).Run past x) (hal : System.Along Sys.careful past) (hph : x.phase = .idle)
    (hsaved : x.savePending = false) (a : Addr) (d : String) :
    (Sys.loaded cfg x.disk).store.Holds a d ↔ x.store.Holds a d := by
  obtain ⟨hx, hcas⟩ := agreed_run hrun hal
  obtain ⟨hgen, hnone⟩ := Sys.savePending_eq_false hsaved
  have hmemory := hx.exact hgen hph (fun f p hp => by
    obtain ⟨hdirty, hforgotten⟩ := hnone f p hp
    have hqueued := (hx.marks.quiet (by rw [hph]; rfl) f p hp).queued
    rw [hdirty] at hqueued
    rw [hforgotten]
    exact ⟨fun r hr => Bool.eq_false_iff.mpr fun h => List.not_mem_nil (hqueued r hr h), nofun⟩) a d
  have hy : Loaded cfg (Sys.loaded cfg x.disk) := ⟨_, rfl⟩
  have hloaded := hy.agreed.exact hy.guarded.generation rfl (fun f p hp =>
    have hplain := (loaded_from hp).1.plain
    ⟨fun r _ => hplain.settled r, by rw [hplain.forgotten]; nofun⟩) a d
  rw [← hloaded, ← hmemory, Started.casing (.inr hy.opened), hcas]
  constructor
  · rintro ⟨w, hw, hl⟩
    exact ⟨w, (loaded_table.mp hw).1, hl⟩
  · rintro ⟨w, hw, hl⟩
    -- the row is that of a record, so it has a domain and an address of a range
    obtain ⟨f, p, r, hp, hr, hheld, rfl, hdom⟩ := hmemory.mp ⟨w, hw, by rw [hcas]; exact hl⟩
    refine ⟨w, loaded_table.mpr ⟨hw, ?_, f, p.net, _, ranges_run hrun hp,
      ((hx.marks.indexed f p hp).1.offset _ r ((p.current_iff r).mp hr)).2.2, rfl⟩, hl⟩
    rintro rfl
    rw [(cfg.casing.lower_eq_empty "").mpr rfl] at hl
    rw [Record.held, hdom, ← hl] at hheld
    cases hheld

/-- A domain got its address, and a save has written it. -/
theorem restart_keeps_pairs_slash30 :
    ∃ x, loadedRun slash30
        [.saveStart {}, .saveCollect (fun _ => []) 864002, .saveWrite true, .saveComplete,
          .allocate .inet4 "A.example" 864003,
          .saveStart {}, .saveCollect (fun _ => [2]) 864004, .saveWrite true, .saveComplete] = some x ∧
      x.savePending = false ∧ (Sys.loaded slash30 x.disk).store.Holds ⟨.inet4, 3323068418, ""⟩ "a.example" := by
  let ls : List Label := [.saveStart {}, .saveCollect (fun _ => []) 864002, .saveWrite true, .saveComplete,
    .allocate .inet4 "A.example" 864003,
    .saveStart {}, .saveCollect (fun _ => [2]) 864004, .saveWrite true, .saveComplete]
  let x := (loadedRun slash30 ls).get (by decide +kernel)
  have hx : loadedRun slash30 ls = some x := (some_get _).symm
  refine ⟨x, hx, by decide +kernel, (restart_keeps_pairs slash30 _ x (loadedRun_run hx)
    (System.along_exec (by decide +kernel)) rfl (by decide +kernel) _ _).mpr ?_⟩
  exact ⟨.inet4, (x.store.pool .inet4).get (by decide +kernel), 0, (some_get _).symm, by decide +kernel⟩

end SingBox.FakeIP
