import SingBox.FakeIP.Load

/-!
# Records a save is about

What a save has taken over from a range and not yet given back: the records it
writes, the records it removes, and the offsets it deletes. Nothing here depends
on the storage, so it holds whatever a write does.
-/
namespace SingBox.FakeIP

open SingBox.Lib List AList

namespace Pool

/-- Only the position, the candidates and the time of use of records with a domain differ. -/
structure SameFlags (p q : Pool) : Prop where
  net : q.net = p.net
  byOffset : q.byOffset = p.byOffset
  dirty : q.dirty = p.dirty
  forgotten : q.forgotten = p.forgotten
  record : ∀ r, q.heap r = { p.heap r with lastUse := (q.heap r).lastUse }
  lastUse : ∀ r, (p.heap r).held = true → (q.heap r).lastUse = (p.heap r).lastUse

/-- The record `r` was added for an offset nothing led to. -/
structure Added (lower : String → String) (p q : Pool) (r o : Nat) : Prop where
  net : q.net = p.net
  fresh : ∀ o' k, p.byOffset.lookup o' = some k → k ≠ r
  free : p.byOffset.lookup o = none
  mem : Ring.Mem firstOffset p.net.usable o
  byOffset : q.byOffset = p.byOffset.insert o r
  dirty : q.dirty = p.dirty ++ [r]
  forgotten : q.forgotten = p.forgotten
  other : ∀ k, k ≠ r → q.heap k = p.heap k
  offset : (q.heap r).offset = o
  domain : (q.heap r).held = false
  lowered : lower (q.heap r).domain = (q.heap r).domain
  new : (q.heap r).dirty = true
  unmarked : (q.heap r).removing = false

theorem SameFlags.refl (p : Pool) : SameFlags p p := ⟨rfl, rfl, rfl, rfl, fun _ => rfl, fun _ _ => rfl⟩

theorem sameFlags_touch (p : Pool) {r : Nat} (stamp : Nat) (h : (p.heap r).held = false) :
    SameFlags p (p.touch r stamp) := by
  refine ⟨rfl, rfl, rfl, rfl, fun k => ?_, fun k hk => ?_⟩
  · rw [touch, update_heap]
    split <;> rfl
  · have hne : k ≠ r := by
      rintro rfl
      rw [h] at hk
      cases hk
    rw [touch, p.update_other r _ hne]

theorem sameFlags_expired (p : Pool) (l : List Removal) : SameFlags p { p with expired := l } :=
  ⟨rfl, rfl, rfl, rfl, fun _ => rfl, fun _ _ => rfl⟩

variable {p q : Pool}

theorem Walk.sameFlags {saved failed : Bool} (hw : Walk saved failed p q) : SameFlags p q := by
  rw [hw.frame]
  exact ⟨rfl, rfl, rfl, rfl, fun _ => rfl, fun _ _ => rfl⟩

/-- A query of a store with a storage adds at most one record. -/
theorem Query.flags {s : Store} {named : Prop} {used : Nat → Prop} (h : Query s named used p q) (hs : s.saved = true)
    (hn : named) (hi : p.Index) : SameFlags p q ∨ ∃ r o, Added s.casing.lower p q r o := by
  cases h with
  | keep => exact .inl (.refl p)
  | touch r stamp _ hr => exact .inl (p.sameFlags_touch stamp (hr hn hi).2)
  | walk q _ hw => exact .inl hw.sameFlags
  | assign t domain stamp _ hw _ hfree hd hl =>
    have hfresh : t.fresh = p.fresh := by rw [hw.frame]
    have hx := hw.assigned domain stamp
    refine .inr ⟨p.fresh, t.next, ⟨hw.net, fun _ _ hk => heap_lt hi hk, ?_, ?_, ?_, ?_, ?_, ?_, ?_, ?_, ?_, ?_, ?_⟩⟩
    · rw [← hw.byOffset]
      exact hfree
    · rw [← hw.net]
      exact (hw.index hi).next
    · rw [← hw.byOffset, ← hfresh]
      rfl
    · show (if s.saved then t.dirty ++ [t.fresh] else t.dirty) = p.dirty ++ [p.fresh]
      rw [if_pos hs, hw.sameFlags.dirty, hfresh]
    · exact hw.sameFlags.forgotten
    · intro k hk
      rw [hx, if_neg hk]
    all_goals rw [hx, if_pos rfl]
    · simpa [Record.held] using hd hn
    · exact hl
    · exact hs

section
variable {lower : String → String} {p q : Pool}

section
variable (h : SameFlags p q)
include h

theorem SameFlags.domain (r : Nat) : (q.heap r).domain = (p.heap r).domain := by
  rw [h.record]

theorem SameFlags.held (r : Nat) : (q.heap r).held = (p.heap r).held := by
  rw [Record.held, Record.held, h.domain]

theorem SameFlags.offset (r : Nat) : (q.heap r).offset = (p.heap r).offset := by
  rw [h.record]

theorem SameFlags.isDirty (r : Nat) : (q.heap r).dirty = (p.heap r).dirty := by
  rw [h.record]

theorem SameFlags.removing (r : Nat) : (q.heap r).removing = (p.heap r).removing := by
  rw [h.record]

theorem SameFlags.current (r : Nat) : q.current r = p.current r := by
  rw [Pool.current, Pool.current, h.byOffset, h.offset]

end

variable {r o : Nat}

theorem Added.lookup (h : Added lower p q r o) (o' k : Nat) :
    q.byOffset.lookup o' = some k ↔ (o' = o ∧ k = r) ∨ (o' ≠ o ∧ p.byOffset.lookup o' = some k) := by
  rw [h.byOffset, Table.lookup_insert_eq_some, eq_comm (a := r)]

theorem Added.leads (h : Added lower p q r o) {o' k : Nat} (hk : p.byOffset.lookup o' = some k) :
    q.byOffset.lookup o' = some k ∧ q.heap k = p.heap k := by
  have hne : o' ≠ o := by
    rintro rfl
    rw [h.free] at hk
    cases hk
  exact ⟨(h.lookup o' k).mpr (.inr ⟨hne, hk⟩), h.other k (h.fresh o' k hk)⟩

theorem Added.current (h : Added lower p q r o) (k : Nat) :
    q.current k = true ↔ k = r ∨ (k ≠ r ∧ p.current k = true) := by
  rw [current_iff, h.lookup]
  by_cases hk : k = r
  · subst hk
    simp [h.offset]
  rw [h.other k hk, current_iff]
  have hne : p.byOffset.lookup (p.heap k).offset = some k → (p.heap k).offset ≠ o := by
    intro hl he
    rw [he, h.free] at hl
    cases hl
  constructor
  · rintro (⟨_, rfl⟩ | ⟨_, hl⟩)
    · exact .inl rfl
    · exact .inr ⟨hk, hl⟩
  · rintro (rfl | ⟨_, hl⟩)
    · exact absurd rfl hk
    · exact .inr ⟨hne hl, hl⟩

theorem Added.old (h : Added lower p q r o) {k : Nat} (hk : p.current k = true) :
    q.current k = true ∧ q.heap k = p.heap k :=
  have hne := h.fresh _ k ((p.current_iff k).mp hk)
  ⟨(h.current k).mpr (.inr ⟨hne, hk⟩), h.other k hne⟩

end

/-- What holds of the records at any time: domains are in lower case, a held back
record is not written, and what was forgotten is in the range. -/
structure Flags (lower : String → String) (p : Pool) : Prop where
  lowered : ∀ r, lower (p.heap r).domain = (p.heap r).domain
  clean : ∀ r, (p.heap r).held = true → (p.heap r).dirty = false
  range : ∀ o ∈ p.forgotten, Ring.Mem firstOffset p.net.usable o

/-- No save has taken anything over. -/
structure Quiet (lower : String → String) (p : Pool) : Prop extends Flags lower p where
  unmarked : ∀ r, (p.heap r).removing = false
  queued : ∀ r, p.current r = true → (p.heap r).dirty = true → r ∈ p.dirty

/-- A save has taken over what `plan` says. -/
structure Marked (lower : String → String) (plan : PoolPlan) (p : Pool) : Prop extends Flags lower p where
  marked : ∀ r, (p.heap r).removing = true ↔ ∃ c ∈ plan.removals, c.record = r
  removal : ∀ c ∈ plan.removals, p.current c.record = true ∧
    ((p.heap c.record).held = true → (p.heap c.record).lastUse = c.lastUse)
  written : ∀ r ∈ plan.written,
    p.current r = true ∧ (p.heap r).dirty = true ∧ (p.heap r).removing = false
  queued : ∀ r, p.current r = true → (p.heap r).dirty = true → r ∈ p.dirty ∨ r ∈ plan.written
  puts : plan.puts = plan.written.map fun r => (p.net.address (p.heap r).offset, (p.heap r).domain)
  removed : ∀ c ∈ plan.removals, p.net.address (p.heap c.record).offset ∈ plan.deletes
  deletes : ∀ a ∈ plan.deletes, ∃ o, Ring.Mem firstOffset p.net.usable o ∧ a = p.net.address o ∧
    ((∃ c ∈ plan.removals, (p.heap c.record).offset = o) ∨
      ∀ r, p.byOffset.lookup o = some r → (p.heap r).dirty = true ∧ r ∉ plan.written)
  given : ∀ o ∈ p.forgotten, p.net.address o ∈ plan.deletes ∨
    ∃ r, p.byOffset.lookup o = some r ∧
      ((p.heap r).dirty = true → (p.heap r).removing = true ∨ r ∈ plan.written)

section
variable {lower : String → String} {plan : PoolPlan} {p q : Pool}

theorem Flags.same (h : SameFlags p q) (hf : p.Flags lower) : q.Flags lower where
  lowered := fun r => by rw [h.domain]; exact hf.lowered r
  clean := fun r hr => by rw [h.isDirty]; exact hf.clean r (h.held r ▸ hr)
  range := by rw [h.forgotten, h.net]; exact hf.range

variable {r o : Nat}

theorem Flags.added (h : Added lower p q r o) (hf : p.Flags lower) : q.Flags lower where
  lowered := by
    intro k
    by_cases hk : k = r
    · rw [hk]; exact h.lowered
    · rw [h.other k hk]; exact hf.lowered k
  clean := by
    intro k hk
    by_cases hkr : k = r
    · rw [hkr, h.domain] at hk
      cases hk
    · rw [h.other k hkr] at hk ⊢
      exact hf.clean k hk
  range := by rw [h.forgotten, h.net]; exact hf.range

theorem Quiet.same (h : SameFlags p q) (hq : p.Quiet lower) : q.Quiet lower where
  toFlags := hq.toFlags.same h
  unmarked := fun r => by rw [h.removing]; exact hq.unmarked r
  queued := fun r hc hd => by
    rw [h.dirty]
    exact hq.queued r (h.current r ▸ hc) (h.isDirty r ▸ hd)

theorem Quiet.added (h : Added lower p q r o) (hq : p.Quiet lower) : q.Quiet lower where
  toFlags := hq.toFlags.added h
  unmarked := by
    intro k
    by_cases hk : k = r
    · rw [hk]; exact h.unmarked
    · rw [h.other k hk]; exact hq.unmarked k
  queued := by
    intro k hc hd
    rw [h.dirty]
    rcases (h.current k).mp hc with rfl | ⟨hk, hc⟩
    · simp
    · rw [h.other k hk] at hd
      exact mem_append_left _ (hq.queued k hc hd)

theorem Marked.same (h : SameFlags p q) (hm : p.Marked lower plan) : q.Marked lower plan where
  toFlags := hm.toFlags.same h
  marked := fun r => by rw [h.removing]; exact hm.marked r
  removal := fun c hc => by
    obtain ⟨hcur, hl⟩ := hm.removal c hc
    refine ⟨(h.current _).trans hcur, fun hh => ?_⟩
    have hh' := h.held c.record ▸ hh
    rw [h.lastUse _ hh']
    exact hl hh'
  written := fun r hr => by
    rw [h.current, h.isDirty, h.removing]
    exact hm.written r hr
  queued := fun r hc hd => by
    rw [h.dirty]
    exact hm.queued r (h.current r ▸ hc) (h.isDirty r ▸ hd)
  puts := by
    simp only [h.net, h.offset, h.domain]
    exact hm.puts
  removed := fun c hc => by
    rw [h.net, h.offset]
    exact hm.removed c hc
  deletes := fun a ha => by
    simp only [h.net, h.offset, h.byOffset, h.isDirty]
    exact hm.deletes a ha
  given := by
    simp only [h.forgotten, h.net, h.byOffset, h.isDirty, h.removing]
    exact hm.given

theorem Marked.added (h : Added lower p q r o) (hm : p.Marked lower plan) :
    q.Marked lower plan := by
  have hrem : ∀ c ∈ plan.removals, q.current c.record = true ∧ q.heap c.record = p.heap c.record :=
    fun c hc => h.old (hm.removal c hc).1
  have hwr : ∀ k ∈ plan.written, q.current k = true ∧ q.heap k = p.heap k :=
    fun k hk => h.old (hm.written k hk).1
  have hrr : ∀ c ∈ plan.removals, c.record ≠ r :=
    fun c hc => h.fresh _ _ ((p.current_iff _).mp (hm.removal c hc).1)
  have hwn : r ∉ plan.written := fun hr => h.fresh _ r ((p.current_iff r).mp (hm.written r hr).1) rfl
  refine ⟨hm.toFlags.added h, ?_, ?_, ?_, ?_, ?_, ?_, ?_, ?_⟩
  · intro k
    by_cases hk : k = r
    · rw [hk, h.unmarked]
      constructor
      · intro hf; cases hf
      · rintro ⟨c, hc, he⟩
        exact absurd he (hrr c hc)
    · rw [h.other k hk]
      exact hm.marked k
  · intro c hc
    obtain ⟨hcur, hh⟩ := hrem c hc
    rw [hh]
    exact ⟨hcur, (hm.removal c hc).2⟩
  · intro k hk
    obtain ⟨hcur, hh⟩ := hwr k hk
    rw [hh]
    exact ⟨hcur, (hm.written k hk).2⟩
  · intro k hc hd
    rw [h.dirty]
    rcases (h.current k).mp hc with rfl | ⟨hk, hc⟩
    · exact .inl (by simp)
    · rw [h.other k hk] at hd
      exact (hm.queued k hc hd).imp_left (mem_append_left _)
  · rw [hm.puts]
    refine map_congr_left fun k hk => ?_
    rw [(hwr k hk).2, h.net]
  · intro c hc
    rw [h.net, (hrem c hc).2]
    exact hm.removed c hc
  · intro a ha
    obtain ⟨o', hmem, rfl, hcase⟩ := hm.deletes a ha
    refine ⟨o', by rw [h.net]; exact hmem, by rw [h.net], ?_⟩
    rcases hcase with ⟨c, hc, rfl⟩ | hfree
    · exact .inl ⟨c, hc, by rw [(hrem c hc).2]⟩
    refine .inr fun k hk => ?_
    rcases (h.lookup o' k).mp hk with ⟨rfl, rfl⟩ | ⟨_, hk⟩
    · exact ⟨h.new, hwn⟩
    · obtain ⟨hd, hw⟩ := hfree k hk
      rw [h.other k (h.fresh o' k hk)]
      exact ⟨hd, hw⟩
  · intro o' ho'
    rw [h.forgotten] at ho'
    rw [h.net]
    refine (hm.given o' ho').imp_right ?_
    rintro ⟨k, hk, hd⟩
    obtain ⟨hl, hh⟩ := h.leads hk
    exact ⟨k, hl, by rwa [hh]⟩

end

/-- `q` is `p` with the records of `removals` marked. -/
structure Marking (p q : Pool) (removals : List Removal) : Prop where
  frame : q = { p with heap := q.heap }
  record : ∀ r, q.heap r = { p.heap r with removing := (q.heap r).removing }
  marked : ∀ r, (q.heap r).removing = true ↔ (p.heap r).removing = true ∨ ∃ c ∈ removals, c.record = r
  chosen : ∀ c ∈ removals, c ∈ p.expired ∧ p.current c.record = true ∧ (p.heap c.record).lastUse = c.lastUse

variable {p : Pool}

theorem Marking.current {q : Pool} {removals : List Removal} (h : Marking p q removals) (r : Nat) :
    q.current r = p.current r := by
  rw [Pool.current, Pool.current, h.record, h.frame]

theorem markRemoval_marking {clean : Bool} {acc : Pool × List Removal} {c : Removal} (hc : c ∈ p.expired)
    (h : Marking p acc.1 acc.2) :
    Marking p (markRemoval clean acc c).1 (markRemoval clean acc c).2 := by
  unfold markRemoval
  dsimp only
  split
  · exact h
  next hn =>
    simp only [Bool.or_eq_true, not_or, Bool.not_eq_true, Bool.not_eq_false', bne_eq_false_iff_eq] at hn
    obtain ⟨⟨⟨_, hrem⟩, hcur⟩, hlast⟩ := hn
    have hcur' := (h.current c.record).symm.trans hcur
    have hlast' : (p.heap c.record).lastUse = c.lastUse := by rw [← hlast, h.record]
    refine ⟨?_, ?_, ?_, ?_⟩
    · rw [h.frame]
      rfl
    · intro r
      rw [update_heap]
      split
      · rw [h.record r]
      · exact h.record r
    · intro r
      rw [update_heap]
      by_cases hr : r = c.record
      · subst hr
        simp
      · rw [if_neg hr, h.marked r]
        simp [Ne.symm hr]
    · exact forall_mem_append.mpr ⟨h.chosen, forall_mem_singleton.mpr ⟨hc, hcur', hlast'⟩⟩

theorem markRemovals_marking (p : Pool) (clean : Bool) :
    Marking p (p.markRemovals clean).1 (p.markRemovals clean).2 := by
  refine foldl_keep (f := markRemoval clean) (fun acc : Pool × List Removal => Marking p acc.1 acc.2)
    (fun acc c hc h => markRemoval_marking hc h) ⟨rfl, fun _ => rfl, fun r => ?_, ?_⟩
  · simp
  · intro c hc
    cases hc

theorem chooseRoom_frame (p : Pool) (room : Bool) (visit : List Nat) (tick : Nat) :
    p.chooseRoom room visit tick = { p with expired := (p.chooseRoom room visit tick).expired } := by
  unfold chooseRoom
  split <;> rfl

section
variable {lower : String → String} {p : Pool}

variable {q : Pool} {r : Nat}

theorem mem_pending :
    r ∈ q.pending ↔ r ∈ q.dirty ∧ (q.heap r).dirty = true ∧ q.current r = true := by
  simp [pending]

/-- The plan that `snapshot` makes once the removals are marked. -/
def planned (q : Pool) (removals : List Removal) (last : Nat) (reserve : Option Nat) : PoolPlan where
  removals := removals
  deletes := removals.map (fun c => q.net.address (q.heap c.record).offset) ++
    (q.forgotten.filter fun o => (q.byOffset.lookup o).isNone).map q.net.address
  written := q.pending.filter fun r => !(q.heap r).removing
  puts := (q.pending.filter fun r => !(q.heap r).removing).map
    fun r => (q.net.address (q.heap r).offset, (q.heap r).domain)
  last := last
  reserve := reserve

theorem Quiet.taken (hq : p.Quiet lower) (hi : p.Index) {removals : List Removal} (hm : Marking p q removals)
    (last : Nat) (reserve : Option Nat) :
    Marked lower (q.planned removals last reserve)
      { q with expired := [], dirty := q.pending.filter fun r => (q.heap r).removing } := by
  have hdom (r : Nat) : (q.heap r).domain = (p.heap r).domain := by rw [hm.record]
  have hoff (r : Nat) : (q.heap r).offset = (p.heap r).offset := by rw [hm.record]
  have hdir (r : Nat) : (q.heap r).dirty = (p.heap r).dirty := by rw [hm.record]
  have hheld (r : Nat) : (q.heap r).held = (p.heap r).held := by rw [Record.held, Record.held, hdom]
  have hnet : q.net = p.net := by rw [hm.frame]
  have hby : q.byOffset = p.byOffset := by rw [hm.frame]
  have hforg : q.forgotten = p.forgotten := by rw [hm.frame]
  have hdirty : q.dirty = p.dirty := by rw [hm.frame]
  -- a dirty record of the range is taken over, to be written or for later
  have hpend : ∀ r, q.current r = true → (q.heap r).dirty = true → r ∈ q.pending := by
    intro r hc hd
    refine mem_pending.mpr ⟨?_, hd, hc⟩
    rw [hdirty]
    exact hq.queued r (hm.current r ▸ hc) (hdir r ▸ hd)
  have hmem : ∀ r, q.current r = true → Ring.Mem firstOffset q.net.usable (q.heap r).offset := by
    intro r hc
    rw [hnet, hoff]
    exact (hi.offset _ r ((p.current_iff r).mp (hm.current r ▸ hc))).2.2
  refine ⟨⟨?_, ?_, ?_⟩, ?_, ?_, ?_, ?_, rfl, ?_, ?_, ?_⟩
  · intro r
    rw [hdom]
    exact hq.lowered r
  · intro r hr
    show (q.heap r).dirty = false
    rw [hdir]
    exact hq.clean r (hheld r ▸ hr)
  · show ∀ o ∈ q.forgotten, Ring.Mem firstOffset q.net.usable o
    rw [hforg, hnet]
    exact hq.range
  · intro r
    rw [hm.marked r, hq.unmarked r]
    simp [planned]
  · intro c hc
    obtain ⟨_, hcur, hl⟩ := hm.chosen c hc
    refine ⟨(hm.current _).trans hcur, fun _ => ?_⟩
    show (q.heap c.record).lastUse = c.lastUse
    rw [hm.record]
    exact hl
  · intro r hr
    obtain ⟨hp, hrem⟩ := mem_filter.mp hr
    obtain ⟨_, hd, hc⟩ := mem_pending.mp hp
    exact ⟨hc, hd, by simpa using hrem⟩
  · intro r hc hd
    have hp := hpend r hc hd
    by_cases hr : (q.heap r).removing = true
    · exact .inl (mem_filter.mpr ⟨hp, hr⟩)
    · exact .inr (mem_filter.mpr ⟨hp, by simpa using hr⟩)
  · intro c hc
    exact mem_append_left _ (mem_map.mpr ⟨c, hc, rfl⟩)
  · intro a ha
    rcases mem_append.mp ha with ha | ha
    · obtain ⟨c, hc, rfl⟩ := mem_map.mp ha
      have hcur := (hm.current _).trans (hm.chosen c hc).2.1
      exact ⟨_, hmem _ hcur, rfl, .inl ⟨c, hc, rfl⟩⟩
    obtain ⟨o, ho, rfl⟩ := mem_map.mp ha
    obtain ⟨ho, hnone⟩ := mem_filter.mp ho
    refine ⟨o, ?_, rfl, .inr fun r hr => ?_⟩
    · show Ring.Mem firstOffset q.net.usable o
      rw [hnet]
      exact hq.range o (hforg ▸ ho)
    · rw [Option.isNone_iff_eq_none.mp hnone] at hr
      cases hr
  · intro o ho
    cases hl : q.byOffset.lookup o with
    | none =>
      refine .inl (mem_append_right _ (mem_map.mpr ⟨o, mem_filter.mpr ⟨ho, ?_⟩, rfl⟩))
      rw [hl]
      rfl
    | some r =>
      refine .inr ⟨r, rfl, fun hd => ?_⟩
      have hcur : q.current r = true := by
        rw [current_iff, hoff, (hi.offset o r (hby ▸ hl)).1]
        exact hl
      by_cases hr : (q.heap r).removing = true
      · exact .inl hr
      · exact .inr (mem_filter.mpr ⟨hpend r hcur hd, by simpa using hr⟩)

theorem sameFlags_chooseRoom (p : Pool) (room : Bool) (visit : List Nat) (tick : Nat) :
    SameFlags p (p.chooseRoom room visit tick) := by
  rw [chooseRoom_frame]
  exact p.sameFlags_expired _

theorem Quiet.snapshot (hq : p.Quiet lower) (hi : p.Index) (clean room : Bool) (visit : List Nat)
    (tick : Nat) :
    (p.snapshot clean room visit tick).1.Marked lower (p.snapshot clean room visit tick).2 :=
  (hq.same (p.sameFlags_chooseRoom room visit tick)).taken
    ((p.sameIndex_chooseRoom room visit tick).index hi)
    ((p.chooseRoom room visit tick).markRemovals_marking clean) _ _

/-- What is left in the queue is removed by this save. -/
theorem snapshot_queue (p : Pool) (clean room : Bool) (visit : List Nat) (tick : Nat)
    (h : r ∈ (p.snapshot clean room visit tick).1.dirty) :
    ((p.snapshot clean room visit tick).1.heap r).removing = true :=
  (mem_filter.mp h).2

/-- What is removed was not used since it was chosen. -/
theorem snapshot_unused (p : Pool) (clean room : Bool) (visit : List Nat) (tick : Nat) {c : Removal}
    (h : c ∈ (p.snapshot clean room visit tick).2.removals) :
    ((p.snapshot clean room visit tick).1.heap c.record).lastUse = c.lastUse := by
  have hm := (p.chooseRoom room visit tick).markRemovals_marking clean
  show (((p.chooseRoom room visit tick).markRemovals clean).1.heap c.record).lastUse = c.lastUse
  rw [hm.record]
  exact (hm.chosen c h).2.2

/-- A recreated file has nothing: every record with a domain is to be written. -/
theorem Quiet.resave (hq : p.Quiet lower) : p.resave.Quiet lower := by
  have hrec : ∀ r, p.resave.heap r = { p.heap r with dirty := (p.resave.heap r).dirty } := by
    intro r
    simp only [Pool.resave]
    split <;> rfl
  have hmem : ∀ r, r ∈ p.resave.dirty → (p.heap r).held = false := by
    intro r hr
    simpa using (mem_filter.mp hr).2
  refine ⟨⟨?_, ?_, ?_⟩, ?_, ?_⟩
  · intro r
    rw [hrec]
    exact hq.lowered r
  · intro r hr
    have hh : (p.heap r).held = true := by
      rw [hrec] at hr
      exact hr
    have hn : r ∉ p.resave.dirty := by
      intro h
      rw [hmem r h] at hh
      cases hh
    show (if r ∈ p.resave.dirty then { p.heap r with dirty := true } else p.heap r).dirty = false
    rw [if_neg hn]
    exact hq.clean r hh
  · intro o ho
    cases ho
  · intro r
    rw [hrec]
    exact hq.unmarked r
  · intro r hc hd
    have hc' : p.current r = true := (p.sameIndex_resave.current r).symm.trans hc
    have hl := (p.current_iff r).mp hc'
    by_cases hh : (p.heap r).held = true
    · by_contra hn
      have hd' : (if r ∈ p.resave.dirty then { p.heap r with dirty := true } else p.heap r).dirty = true := hd
      rw [if_neg hn, hq.clean r hh] at hd'
      cases hd'
    · refine mem_filter.mpr ⟨mem_filterMap.mpr ⟨_, ?_, hl⟩, by simpa using hh⟩
      exact mem_keys.mp (lookup_isSome.mp (by rw [hl]; rfl))

end

/-- `q` is `p` after a removal was finished: only its record is concerned. -/
structure Finished (c : Removal) (p q : Pool) : Prop where
  frame : q = { p with heap := q.heap, byName := q.byName, byOffset := q.byOffset, dirty := q.dirty }
  other : ∀ r, r ≠ c.record → q.heap r = p.heap r
  record : q.heap c.record = { p.heap c.record with dirty := (q.heap c.record).dirty, removing := false }
  sub : ∀ o r, q.byOffset.lookup o = some r → p.byOffset.lookup o = some r
  kept : ∀ o r, p.byOffset.lookup o = some r → r ≠ c.record ∨ (p.heap c.record).lastUse ≠ c.lastUse →
    q.byOffset.lookup o = some r
  redone : q.current c.record = true → (q.heap c.record).dirty = true ∧ (p.heap c.record).lastUse ≠ c.lastUse
  queued : ∀ r, (q.heap r).dirty = true → (p.heap r).dirty = true ∨ r ∈ q.dirty
  dirty : ∀ r ∈ p.dirty, r ∈ q.dirty
  clean : (p.heap c.record).lastUse = c.lastUse → (q.heap c.record).dirty = (p.heap c.record).dirty

theorem finished (p : Pool) (c : Removal) : Finished c p (p.finishRemoval c) := by
  have hcur := (p.sameIndex_unmark c).current c.record
  have hsame : (p.unmark c).heap c.record = { p.heap c.record with removing := false } := p.update_same _ _
  have hdirt : ((p.unmark c).heap c.record).dirty = (p.heap c.record).dirty := by rw [hsame]
  have hrec : (p.unmark c).heap c.record =
      { p.heap c.record with dirty := ((p.unmark c).heap c.record).dirty, removing := false } := by rw [hsame]
  have hother : ∀ r, r ≠ c.record → (p.unmark c).heap r = p.heap r := fun r hr => p.update_other _ _ hr
  have hdirty : ∀ r, ((p.unmark c).heap r).dirty = true → (p.heap r).dirty = true := by
    intro r hd
    rw [unmark, update_heap] at hd
    split at hd <;> exact hd
  unfold finishRemoval
  dsimp only
  rw [hcur, hsame]
  split
  next hn =>
    refine ⟨rfl, hother, hrec, fun _ _ h => h, fun _ _ h _ => h, fun hc => ?_, fun r hd => .inl (hdirty r hd),
      fun _ h => h, fun _ => hdirt⟩
    rw [← hcur, hc] at hn
    cases hn
  next hn =>
    have hc : p.byOffset.lookup (p.heap c.record).offset = some c.record := (p.current_iff _).mp (by simpa using hn)
    split
    next hne =>
      have hne : (p.heap c.record).lastUse ≠ c.lastUse := by simpa using hne
      split
      next hd =>
        exact ⟨rfl, hother, hrec, fun _ _ h => h, fun _ _ h _ => h, fun _ => ⟨hdirt.trans hd, hne⟩,
          fun r hd => .inl (hdirty r hd), fun _ h => h, fun hl => absurd hl hne⟩
      · refine ⟨rfl, fun r hr => (Function.update_of_ne hr _ _).trans (hother r hr), ?_, fun _ _ h => h,
          fun _ _ h _ => h, fun _ => ⟨by simp, hne⟩, fun r hd => ?_, fun _ h => mem_append_left _ h,
          fun hl => absurd hl hne⟩
        · simp [hsame]
        · by_cases hr : r = c.record
          · exact .inr (by simp [hr])
          · dsimp only at hd
            rw [(p.unmark c).update_other _ _ hr] at hd
            exact .inl (hdirty r hd)
    next hl =>
      have hl : (p.heap c.record).lastUse = c.lastUse := by simpa using hl
      have hlook : ∀ o r, ((p.unmark c).remove c.record).byOffset.lookup o = some r ↔
          o ≠ (p.heap c.record).offset ∧ p.byOffset.lookup o = some r := by
        intro o r
        rw [remove_lookup, hsame]
        rfl
      refine ⟨rfl, hother, hrec, fun o r h => ((hlook o r).mp h).2, fun o r h hcase => (hlook o r).mpr ⟨?_, h⟩,
        fun hcur => ?_, fun r hd => .inl (hdirty r hd), fun _ h => h, fun _ => hdirt⟩
      · rintro rfl
        cases hc.symm.trans h
        exact hcase.elim (fun hne => hne rfl) fun hne => hne hl
      · rw [current_iff, hlook] at hcur
        exact absurd (congrArg Record.offset hsame) hcur.1

section
variable {c : Removal} {p q : Pool} (h : Finished c p q)
include h

theorem Finished.same (r : Nat) :
    q.heap r = { p.heap r with dirty := (q.heap r).dirty, removing := (q.heap r).removing } := by
  by_cases hr : r = c.record
  · rw [hr, h.record]
  · rw [h.other r hr]

theorem Finished.marked {rest : List Removal}
    (hm : ∀ r, (p.heap r).removing = true → ∃ d ∈ c :: rest, d.record = r) {r : Nat}
    (hr : (q.heap r).removing = true) : ∃ d ∈ rest, d.record = r := by
  have hrc : r ≠ c.record := by
    rintro rfl
    rw [h.record] at hr
    cases hr
  rw [h.other r hrc] at hr
  obtain ⟨d, hd, he⟩ := hm r hr
  rcases mem_cons.mp hd with rfl | hd
  · exact absurd he.symm hrc
  · exact ⟨d, hd, he⟩

end

/-- A loop that makes the same change to some records. -/
theorem foldl_update {α : Type} (k : α → Nat) (g : Record → Record) (hg : ∀ x, g (g x) = g x) (l : List α)
    (p : Pool) :
    l.foldl (fun p a => p.update (k a) g) p =
      { p with heap := fun r => if r ∈ l.map k then g (p.heap r) else p.heap r } := by
  induction l generalizing p with
  | nil => simp
  | cons a l ih =>
    rw [foldl_cons, ih]
    simp only [update, mk.injEq, true_and, and_true]
    funext r
    by_cases hr : r = k a
    · subst hr
      simp [hg]
    · simp [hr]

theorem foldl_settle (l : List Nat) (p : Pool) :
    l.foldl settle p = { p with heap := fun r => if r ∈ l then { p.heap r with dirty := false } else p.heap r } := by
  have h := foldl_update id (fun x : Record => { x with dirty := false }) (fun _ => rfl) l p
  rw [map_id] at h
  exact h

theorem foldl_unmark (l : List Removal) (p : Pool) :
    l.foldl unmark p =
      { p with heap := fun r =>
          if r ∈ l.map Removal.record then { p.heap r with removing := false } else p.heap r } :=
  foldl_update Removal.record (fun x : Record => { x with removing := false }) (fun _ => rfl) l p

/-- `q` is `p` on the way to the end of a save: what was written is settled, and the removals
up to `rest` are finished. -/
structure Finishing (plan : PoolPlan) (p q : Pool) (rest : List Removal) : Prop where
  net : q.net = p.net
  forgotten : q.forgotten = []
  record : ∀ r, q.heap r = { p.heap r with dirty := (q.heap r).dirty, removing := (q.heap r).removing }
  sub : ∀ o r, q.byOffset.lookup o = some r → p.byOffset.lookup o = some r
  kept : ∀ o r, p.byOffset.lookup o = some r → (p.heap r).removing = false → q.byOffset.lookup o = some r
  plain : ∀ r, (p.heap r).removing = false →
    (q.heap r).dirty = ((p.heap r).dirty && decide (r ∉ plan.written))
  marked : ∀ r, (q.heap r).removing = true → ∃ c ∈ rest, c.record = r
  redone : ∀ r, q.current r = true → (p.heap r).removing = true → (q.heap r).removing = false →
    (q.heap r).dirty = true ∧ ∃ c ∈ plan.removals, c.record = r ∧ (p.heap r).lastUse ≠ c.lastUse
  queued : ∀ r, q.current r = true → (q.heap r).dirty = true →
    ((p.heap r).dirty = true ∧ r ∉ plan.written) ∨ r ∈ q.dirty
  dirty : ∀ r ∈ p.dirty, r ∈ q.dirty
  clean : ∀ r, (p.heap r).held = true → (p.heap r).dirty = false → (q.heap r).dirty = false

section
variable {lower : String → String} {plan : PoolPlan} {p q : Pool} {rest : List Removal}

theorem Marked.settled (hm : p.Marked lower plan) :
    Finishing plan p { plan.written.foldl settle p with forgotten := [] } plan.removals := by
  have hrem : ∀ r, ((plan.written.foldl settle p).heap r).removing = (p.heap r).removing := by
    intro r
    rw [foldl_settle]
    dsimp only
    split <;> rfl
  refine ⟨?_, rfl, fun r => ?_, fun o r hr => ?_, fun o r hr _ => ?_, fun r _ => ?_,
    fun r hr => (hm.marked r).mp (hrem r ▸ hr), fun r _ h₁ h₂ => ?_, fun r _ hd => ?_, fun r hr => ?_, fun r _ hd => ?_⟩
  case refine_6 =>
    rw [← hrem] at h₁
    cases h₁.symm.trans h₂
  all_goals
    simp only [foldl_settle] at *
  · split <;> rfl
  · exact hr
  · exact hr
  · by_cases hw : r ∈ plan.written <;> simp [hw]
  · by_cases hw : r ∈ plan.written
    · rw [if_pos hw] at hd
      cases hd
    · rw [if_neg hw] at hd
      exact .inl ⟨hd, hw⟩
  · exact hr
  · split
    · rfl
    · exact hd

theorem Finishing.step {c : Removal} (h : Finishing plan p q (c :: rest)) (hm : p.Marked lower plan)
    (hc : c ∈ plan.removals) : Finishing plan p (q.finishRemoval c) rest := by
  have hf := q.finished c
  generalize q.finishRemoval c = t at hf
  have hlast : (q.heap c.record).lastUse = (p.heap c.record).lastUse := by rw [h.record]
  have hne : ∀ r, (p.heap r).removing = false → r ≠ c.record := by
    rintro r hr rfl
    rw [(hm.marked _).mpr ⟨c, hc, rfl⟩] at hr
    cases hr
  have hcur : ∀ r, t.current r = true → q.current r = true := by
    intro r hr
    rw [current_iff, hf.same] at hr
    exact (q.current_iff r).mpr (hf.sub _ r hr)
  refine ⟨by rw [hf.frame]; exact h.net, by rw [hf.frame]; exact h.forgotten, fun r => by rw [hf.same, h.record],
    fun o r hr => h.sub o r (hf.sub o r hr), fun o r hr hu => hf.kept o r (h.kept o r hr hu) (.inl (hne r hu)),
    fun r hu => ?_, fun r hr => hf.marked h.marked hr, fun r hr hrem hr' => ?_, fun r hr hd => ?_,
    fun r hr => hf.dirty r (h.dirty r hr), fun r hh hd => ?_⟩
  · rw [hf.other r (hne r hu)]
    exact h.plain r hu
  · by_cases hrc : r = c.record
    · subst hrc
      obtain ⟨hd, hl⟩ := hf.redone hr
      exact ⟨hd, c, hc, rfl, hlast ▸ hl⟩
    · rw [hf.other r hrc] at hr' ⊢
      exact h.redone r (hcur r hr) hrem hr'
  · rcases hf.queued r hd with hd | hq
    · exact (h.queued r (hcur r hr) hd).imp_right (hf.dirty r)
    · exact .inr hq
  · by_cases hrc : r = c.record
    · subst hrc
      rw [hf.clean (hlast.trans ((hm.removal c hc).2 hh))]
      exact h.clean _ hh hd
    · rw [hf.other r hrc]
      exact h.clean r hh hd

theorem Marked.completed (hm : p.Marked lower plan) : Finishing plan p (p.complete plan) [] := by
  obtain ⟨h, _⟩ := foldl_left (f := finishRemoval)
    (fun q rest => Finishing plan p q rest ∧ ∀ c ∈ rest, c ∈ plan.removals)
    (fun q c rest h => ⟨h.1.step hm (h.2 c mem_cons_self), fun d hd => h.2 d (mem_cons_of_mem c hd)⟩)
    plan.removals _ ⟨hm.settled, fun _ hc => hc⟩
  -- the reserve is no concern of the records
  unfold complete
  cases plan.reserve with
  | none => exact h
  | some start =>
    exact ⟨h.net, h.forgotten, h.record, h.sub, h.kept, h.plain, h.marked, h.redone, h.queued, h.dirty, h.clean⟩

theorem Finishing.unmarked (h : Finishing plan p q []) (r : Nat) : (q.heap r).removing = false := by
  refine Bool.eq_false_iff.mpr fun hr => ?_
  obtain ⟨c, hc, _⟩ := h.marked r hr
  cases hc

theorem Finishing.current (h : Finishing plan p q rest) {r : Nat} (hr : q.current r = true) : p.current r = true := by
  rw [current_iff] at hr ⊢
  rw [h.record] at hr
  exact h.sub _ r hr

theorem Marked.complete (hm : p.Marked lower plan) : (p.complete plan).Quiet lower := by
  have h := hm.completed
  refine ⟨⟨?_, ?_, ?_⟩, ?_, ?_⟩
  · intro r
    rw [h.record]
    exact hm.lowered r
  · intro r hr
    have hh : (p.heap r).held = true := by
      rw [Record.held, h.record] at hr
      exact hr
    exact h.clean r hh (hm.clean r hh)
  · rw [h.forgotten]
    intro o ho
    cases ho
  · exact h.unmarked
  · intro r hc hd
    rcases h.queued r hc hd with ⟨hd, hw⟩ | hq
    · rcases hm.queued r (h.current hc) hd with hq | hq
      · exact h.dirty r hq
      · exact absurd hq hw
    · exact hq

end

/-- `q` is `p` after the write of `plan` failed; some records may have been given up, the saved ones
to be deleted later. -/
structure Abandoned (plan : PoolPlan) (p q : Pool) : Prop where
  net : q.net = p.net
  record : ∀ r, q.heap r = { p.heap r with removing := false }
  dirty : q.dirty = p.dirty ++ plan.written
  sub : ∀ o r, q.byOffset.lookup o = some r → p.byOffset.lookup o = some r
  gone : ∀ o r, p.byOffset.lookup o = some r →
    q.byOffset.lookup o = some r ∨
      (q.byOffset.lookup o = none ∧ ((p.heap r).dirty = false → o ∈ q.forgotten))
  forgotten : ∀ o ∈ p.forgotten, o ∈ q.forgotten
  range : ∀ o ∈ q.forgotten, o ∈ p.forgotten ∨ ∃ r, p.byOffset.lookup o = some r

section
variable {lower : String → String} {plan : PoolPlan} {p : Pool}

variable {q : Pool}

theorem Abandoned.step (h : Abandoned plan p q) (c : Removal) : Abandoned plan p (q.forget c) := by
  unfold forget
  split
  · exact h
  next hn =>
    simp only [Bool.or_eq_true, not_or, Bool.not_eq_true, Bool.not_eq_false'] at hn
    have hcur : q.byOffset.lookup (q.heap c.record).offset = some c.record := (q.current_iff _).mp hn.1
    have hp := h.sub _ _ hcur
    have hsub : ∀ o r, (q.remove c.record).byOffset.lookup o = some r → p.byOffset.lookup o = some r :=
      fun o r hr => h.sub o r ((remove_lookup o r).mp hr).2
    have hnone : (q.remove c.record).byOffset.lookup (q.heap c.record).offset = none :=
      lookup_erase _ _
    dsimp only
    split
    next hd =>
      refine ⟨h.net, h.record, h.dirty, hsub, ?_, h.forgotten, h.range⟩
      intro o r hr
      by_cases ho : o = (q.heap c.record).offset
      · subst ho
        rw [hr] at hp
        cases hp
        refine .inr ⟨hnone, fun hf => ?_⟩
        rw [h.record, hf] at hd
        cases hd
      · exact (h.gone o r hr).imp (fun hq => (remove_lookup o r).mpr ⟨ho, hq⟩)
          (fun hq => ⟨(lookup_erase_ne ho).trans hq.1, hq.2⟩)
    · refine ⟨h.net, h.record, h.dirty, hsub, ?_, ?_, ?_⟩
      · intro o r hr
        by_cases ho : o = (q.heap c.record).offset
        · subst ho
          exact .inr ⟨hnone, fun _ => by simp⟩
        · exact (h.gone o r hr).imp (fun hq => (remove_lookup o r).mpr ⟨ho, hq⟩)
            (fun hq => ⟨(lookup_erase_ne ho).trans hq.1, fun hf => mem_append_left _ (hq.2 hf)⟩)
      · intro o ho
        exact mem_append_left _ (h.forgotten o ho)
      · exact forall_mem_append.mpr ⟨h.range, forall_mem_singleton.mpr (.inr ⟨_, hp⟩)⟩

theorem Marked.abandoned (hm : p.Marked lower plan) (room : Bool) :
    Abandoned plan p (p.abandon room plan) := by
  have hun := foldl_unmark plan.removals { p with dirty := p.dirty ++ plan.written }
  have hstart : Abandoned plan p (plan.removals.foldl unmark { p with dirty := p.dirty ++ plan.written }) := by
    rw [hun]
    refine ⟨rfl, fun r => ?_, rfl, fun _ _ h => h, fun _ _ h => .inl h, fun _ h => h, fun _ h => .inl h⟩
    dsimp only
    split
    · rfl
    next hn =>
      have hf : (p.heap r).removing = false := by
        refine Bool.eq_false_iff.mpr fun hr => hn ?_
        obtain ⟨c, hc, he⟩ := (hm.marked r).mp hr
        exact he ▸ mem_map_of_mem hc
      rw [← hf]
  unfold abandon
  dsimp only
  split
  · exact foldl_keep (Abandoned plan p) (fun _ c _ hq => hq.step c) hstart
  · exact hstart

theorem Abandoned.current (h : Abandoned plan p q) {r : Nat} (hr : q.current r = true) :
    p.current r = true := by
  rw [current_iff] at hr ⊢
  rw [h.record] at hr
  exact h.sub _ r hr

theorem Marked.abandon (hm : p.Marked lower plan) (hi : p.Index) (room : Bool) :
    (p.abandon room plan).Quiet lower := by
  have h := hm.abandoned room
  refine ⟨⟨?_, ?_, ?_⟩, ?_, ?_⟩
  · intro r
    rw [h.record]
    exact hm.lowered r
  · intro r hr
    rw [Record.held, h.record] at hr
    rw [h.record]
    exact hm.clean r hr
  · intro o ho
    rw [h.net]
    rcases h.range o ho with ho | ⟨r, hr⟩
    · exact hm.range o ho
    · exact (hi.offset o r hr).2.2
  · intro r
    rw [h.record]
  · intro r hc hd
    rw [h.record] at hd
    rw [h.dirty]
    exact mem_append.mpr (hm.queued r (h.current hc) hd)

end

section
variable {lower : String → String} {plan : PoolPlan} {p : Pool}

theorem Plain.quiet (hp : p.Plain lower) : p.Quiet lower where
  lowered := hp.lowered
  clean := fun r _ => hp.settled r
  range := by rw [hp.forgotten]; intro o ho; cases ho
  unmarked := hp.unmarked
  queued := fun r _ hd => by rw [hp.settled r] at hd; cases hd

/-- A save that found nothing to do has taken nothing over. -/
theorem Marked.quiet (hm : p.Marked lower plan) (hr : plan.removals = []) (hw : plan.written = []) :
    p.Quiet lower where
  toFlags := hm.toFlags
  unmarked := fun r => Bool.eq_false_iff.mpr fun h => by
    obtain ⟨c, hc, _⟩ := (hm.marked r).mp h
    rw [hr] at hc
    cases hc
  queued := fun r hc hd => by
    rcases hm.queued r hc hd with h | h
    · exact h
    · rw [hw] at h
      cases h

theorem Quiet.clear (hq : p.Quiet lower) :
    Quiet lower { p with byName := ∅, byOffset := ∅, dirty := [], expired := [], forgotten := [] } where
  lowered := hq.lowered
  clean := hq.clean
  range := fun o ho => by cases ho
  unmarked := hq.unmarked
  queued := fun r hc => by
    rw [current_iff] at hc
    cases hc

end
end Pool

end SingBox.FakeIP
