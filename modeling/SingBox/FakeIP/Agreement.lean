import SingBox.FakeIP.Answers
import SingBox.FakeIP.Saves

/-!
# The storage agrees with the memory

A record without pending changes has its row, and a row without such a record is
known to be out of date: its offset was forgotten and is deleted or overwritten
by the next write. A save that nothing interrupts then leaves in the storage
exactly the records of the memory.
-/
namespace SingBox.FakeIP

open SingBox.Lib Option Bool AList List Pool Sys Store

namespace Pool

/-- What the rows of a range say of it, unless a write is being completed. -/
structure Agrees (lower : String → String) (row : Nat → Option String) (p : Pool) : Prop where
  stored : ∀ r, p.current r = true → (p.heap r).held = false → (p.heap r).dirty = false →
    ∃ w, row (p.heap r).offset = some w ∧ lower w = (p.heap r).domain
  row : ∀ o w, Ring.Mem firstOffset p.net.usable o → row o = some w →
    (∃ r, p.byOffset.lookup o = some r ∧ (p.heap r).held = false ∧ (p.heap r).dirty = false ∧
      lower w = (p.heap r).domain) ∨
    (o ∈ p.forgotten ∧ ∀ r, p.byOffset.lookup o = some r → (p.heap r).dirty = true)

/-- What they say once the changes of `plan` are written. -/
structure Committed (lower : String → String) (row : Nat → Option String) (plan : PoolPlan) (p : Pool) :
    Prop where
  stored : ∀ r, p.current r = true → (p.heap r).held = false →
    r ∈ plan.written ∨ ((p.heap r).dirty = false ∧ (p.heap r).removing = false) →
    ∃ w, row (p.heap r).offset = some w ∧ lower w = (p.heap r).domain
  row : ∀ o w, Ring.Mem firstOffset p.net.usable o → row o = some w →
    ∃ r, p.byOffset.lookup o = some r ∧ (p.heap r).held = false ∧ lower w = (p.heap r).domain ∧
      (r ∈ plan.written ∨ ((p.heap r).dirty = false ∧ (p.heap r).removing = false))

/-- Nothing the rows are compared with is different. -/
structure SameRows (p q : Pool) : Prop where
  net : q.net = p.net
  byOffset : q.byOffset = p.byOffset
  forgotten : q.forgotten = p.forgotten
  domain : ∀ r, (q.heap r).domain = (p.heap r).domain
  offset : ∀ r, (q.heap r).offset = (p.heap r).offset
  dirty : ∀ r, (q.heap r).dirty = (p.heap r).dirty

theorem SameFlags.rows {p q : Pool} (h : SameFlags p q) : SameRows p q :=
  ⟨h.net, h.byOffset, h.forgotten, h.domain, h.offset, h.isDirty⟩

theorem sameRows_snapshot (p : Pool) (clean room : Bool) (visit : List Nat) (tick : Nat) :
    SameRows p (p.snapshot clean room visit tick).1 := by
  have hc := (p.sameFlags_chooseRoom room visit tick).rows
  have hm := (p.chooseRoom room visit tick).markRemovals_marking clean
  have hframe := hm.frame
  generalize hq : ((p.chooseRoom room visit tick).markRemovals clean).1 = q at hm hframe
  have h : SameRows p q := by
    refine ⟨?_, ?_, ?_, fun r => ?_, fun r => ?_, fun r => ?_⟩
    · rw [hframe]; exact hc.net
    · rw [hframe]; exact hc.byOffset
    · rw [hframe]; exact hc.forgotten
    · rw [hm.record]; exact hc.domain r
    · rw [hm.record]; exact hc.offset r
    · rw [hm.record]; exact hc.dirty r
  subst hq
  exact ⟨h.net, h.byOffset, h.forgotten, h.domain, h.offset, h.dirty⟩

section
variable {lower : String → String} {row : Nat → Option String} {plan : PoolPlan} {p q : Pool}

theorem Agrees.same (h : SameRows p q) (ha : p.Agrees lower row) : q.Agrees lower row where
  stored := fun r hc hh hd => by
    rw [h.offset, h.domain]
    refine ha.stored r ?_ ?_ (h.dirty r ▸ hd)
    · rw [current_iff, h.offset, h.byOffset] at hc
      exact (p.current_iff r).mpr hc
    · rw [Record.held, h.domain] at hh
      exact hh
  row := fun o w hm hw => by
    simp only [Record.held, h.byOffset, h.domain, h.dirty, h.forgotten]
    exact ha.row o w (h.net ▸ hm) hw

variable {o r k : Nat}

theorem Agrees.added (h : Added lower p q r o) (ha : p.Agrees lower row) : q.Agrees lower row where
  stored := by
    intro k hc hh hd
    rcases (h.current k).mp hc with rfl | ⟨hk, hc⟩
    · rw [h.new] at hd
      cases hd
    · rw [h.other k hk] at hh hd ⊢
      exact ha.stored k hc hh hd
  row := by
    intro o' w hm hw
    rcases ha.row o' w (h.net ▸ hm) hw with ⟨k, hk, hrest⟩ | ⟨hf, hd⟩
    · obtain ⟨hl, hh⟩ := h.leads hk
      exact .inl ⟨k, hl, by rwa [hh]⟩
    · refine .inr ⟨by rw [h.forgotten]; exact hf, fun k hk => ?_⟩
      rcases (h.lookup o' k).mp hk with ⟨_, rfl⟩ | ⟨_, hk⟩
      · exact h.new
      · rw [(h.leads hk).2]
        exact hd k hk

theorem Committed.same (h : SameFlags p q) (hc : p.Committed lower row plan) :
    q.Committed lower row plan where
  stored := fun r hcur hh hd => by
    rw [h.offset, h.domain]
    rw [h.isDirty, h.removing] at hd
    exact hc.stored r (h.current r ▸ hcur) (h.held r ▸ hh) hd
  row := fun o w hm hw => by
    obtain ⟨r, hr, hrest⟩ := hc.row o w (h.net ▸ hm) hw
    refine ⟨r, by rw [h.byOffset]; exact hr, ?_⟩
    rw [h.held, h.domain, h.isDirty, h.removing]
    exact hrest

theorem Committed.added (h : Added lower p q r o) (hm : p.Marked lower plan) (hc : p.Committed lower row plan) :
    q.Committed lower row plan where
  stored := by
    intro k hcur hh hd
    rcases (h.current k).mp hcur with rfl | ⟨hk, hcur⟩
    · rcases hd with hw | ⟨hd, _⟩
      · exact absurd rfl (h.fresh _ k ((p.current_iff k).mp (hm.written k hw).1))
      · rw [h.new] at hd
        cases hd
    · rw [h.other k hk] at hh hd ⊢
      exact hc.stored k hcur hh hd
  row := by
    intro o' w hmem hw
    obtain ⟨k, hk, hrest⟩ := hc.row o' w (h.net ▸ hmem) hw
    obtain ⟨hl, hh⟩ := h.leads hk
    exact ⟨k, hl, by rwa [hh]⟩

theorem agrees_resave (h : ∀ o, row o = none) (p : Pool) : p.resave.Agrees lower row where
  stored := by
    intro r hc hh hd
    have hc' := (p.current_iff r).mp ((p.sameIndex_resave.current r).symm.trans hc)
    have hh' : (p.heap r).held = false := (p.sameIndex_resave.held r).symm.trans hh
    have hmem : r ∈ p.resave.dirty := by
      refine mem_filter.mpr ⟨mem_filterMap.mpr ⟨_, ?_, hc'⟩, by simpa using hh'⟩
      exact mem_keys.mp (lookup_isSome.mp (by rw [hc']; rfl))
    have hd' : (if r ∈ p.resave.dirty then { p.heap r with dirty := true } else p.heap r).dirty = false := hd
    rw [if_pos hmem] at hd'
    cases hd'
  row := fun o w _ hw => by rw [h o] at hw; cases hw

/-- How the write of `plan` changes the rows of its range. -/
structure Wrote (plan : PoolPlan) (p : Pool) (row row' : Nat → Option String) : Prop where
  put : ∀ r ∈ plan.written, row' (p.heap r).offset = some (p.heap r).domain
  deleted : ∀ o, Ring.Mem firstOffset p.net.usable o → (∀ r ∈ plan.written, (p.heap r).offset ≠ o) →
    p.net.address o ∈ plan.deletes → row' o = none
  kept : ∀ o, Ring.Mem firstOffset p.net.usable o → (∀ r ∈ plan.written, (p.heap r).offset ≠ o) →
    p.net.address o ∉ plan.deletes → row' o = row o

theorem mem_lt_stop (hi : p.Index) (h : Ring.Mem firstOffset p.net.usable o) : o < p.net.stop :=
  p.net.usable_add hi.usable ▸ h.2

theorem Marked.written_at (hm : p.Marked lower plan) (hr : r ∈ plan.written)
    (hk : p.byOffset.lookup (p.heap r).offset = some k) : k = r := by
  rw [(p.current_iff r).mp (hm.written r hr).1] at hk
  exact (Option.some.inj hk).symm

/-- What is deleted has no record, or one that is removed or not written yet. -/
theorem Marked.deleted_at (hm : p.Marked lower plan) (hi : p.Index) (ho : Ring.Mem firstOffset p.net.usable o)
    (hd : p.net.address o ∈ plan.deletes) (hk : p.byOffset.lookup o = some k) :
    (p.heap k).removing = true ∨ ((p.heap k).dirty = true ∧ k ∉ plan.written) := by
  obtain ⟨o', ho', he, hcase⟩ := hm.deletes _ hd
  cases p.net.address_injective (mem_lt_stop hi ho) (mem_lt_stop hi ho') he
  rcases hcase with ⟨c, hc, rfl⟩ | hfree
  · rw [(p.current_iff _).mp (hm.removal c hc).1] at hk
    cases hk
    exact .inl ((hm.marked _).mpr ⟨c, hc, rfl⟩)
  · exact .inr (hfree k hk)

theorem Agrees.write {row' : Nat → Option String} (ha : p.Agrees lower row) (hm : p.Marked lower plan)
    (hi : p.Index) (hw : Wrote plan p row row') : p.Committed lower row' plan where
  stored := by
    intro r hc hh hcase
    have hl := (p.current_iff r).mp hc
    have hmem := (hi.offset _ r hl).2.2
    rcases hcase with hr | ⟨hd, hrem⟩
    · exact ⟨_, hw.put r hr, hm.lowered r⟩
    have hnw : ∀ k ∈ plan.written, (p.heap k).offset ≠ (p.heap r).offset := by
      intro k hk he
      cases hm.written_at hk (he ▸ hl)
      rw [(hm.written r hk).2.1] at hd
      cases hd
    have hnd : p.net.address (p.heap r).offset ∉ plan.deletes := by
      intro h
      rcases hm.deleted_at hi hmem h hl with h | h
      · rw [hrem] at h
        cases h
      · rw [hd] at h
        cases h.1
    rw [hw.kept _ hmem hnw hnd]
    exact ha.stored r hc hh hd
  row := by
    intro o w hmem hrow
    by_cases hwr : ∃ r ∈ plan.written, (p.heap r).offset = o
    · obtain ⟨r, hr, rfl⟩ := hwr
      obtain ⟨hc, hd, hrem⟩ := hm.written r hr
      have hh : (p.heap r).held = false := by
        refine eq_false_iff.mpr fun h => ?_
        rw [hm.clean r h] at hd
        cases hd
      rw [hw.put r hr] at hrow
      cases hrow
      exact ⟨r, (p.current_iff r).mp hc, hh, hm.lowered r, .inl hr⟩
    · have hnw : ∀ r ∈ plan.written, (p.heap r).offset ≠ o := fun r hr he => hwr ⟨r, hr, he⟩
      have hnd : p.net.address o ∉ plan.deletes := by
        intro h
        rw [hw.deleted o hmem hnw h] at hrow
        cases hrow
      rw [hw.kept o hmem hnw hnd] at hrow
      have hnr : ∀ r, p.byOffset.lookup o = some r → (p.heap r).removing = false := by
        intro r hr
        refine eq_false_iff.mpr fun h => hnd ?_
        obtain ⟨c, hc, rfl⟩ := (hm.marked r).mp h
        exact (hi.offset o _ hr).1 ▸ hm.removed c hc
      rcases ha.row o w hmem hrow with ⟨r, hr, hh, hd, hl⟩ | ⟨hf, hd⟩
      · exact ⟨r, hr, hh, hl, .inr ⟨hd, hnr r hr⟩⟩
      rcases hm.given o hf with h | ⟨r, hr, h⟩
      · exact absurd h hnd
      · rcases h (hd r hr) with h | h
        · rw [hnr r hr] at h
          cases h
        · exact absurd (hi.offset o r hr).1 (hnw r h)

theorem Committed.complete (hc : p.Committed lower row plan) (hm : p.Marked lower plan) :
    (p.complete plan).Agrees lower row := by
  have h := hm.completed
  have hoff : ∀ r, ((p.complete plan).heap r).offset = (p.heap r).offset := fun r => by rw [h.record]
  have hdom : ∀ r, ((p.complete plan).heap r).domain = (p.heap r).domain := fun r => by rw [h.record]
  refine ⟨?_, ?_⟩
  · intro r hcur hh hd
    rw [hoff, hdom]
    rw [Record.held, hdom] at hh
    by_cases hr : (p.heap r).removing = true
    · rw [(h.redone r hcur hr (h.unmarked r)).1] at hd
      cases hd
    · have hr' := eq_false_iff.mpr hr
      rw [h.plain r hr', and_eq_false_iff, decide_eq_false_iff_not, Decidable.not_not] at hd
      exact hc.stored r (h.current hcur) hh (hd.symm.imp_right fun hd => ⟨hd, hr'⟩)
  · intro o w hmem hw
    obtain ⟨r, hr, hh, hl, hcase⟩ := hc.row o w (h.net ▸ hmem) hw
    have hrem : (p.heap r).removing = false := by
      rcases hcase with hw | ⟨_, hrem⟩
      · exact (hm.written r hw).2.2
      · exact hrem
    refine .inl ⟨r, h.kept o r hr hrem, by rw [Record.held, hdom]; exact hh, ?_, by rw [hdom]; exact hl⟩
    rw [h.plain r hrem, and_eq_false_iff, decide_eq_false_iff_not, Decidable.not_not]
    exact hcase.symm.imp_left And.left

theorem Agrees.abandon (ha : p.Agrees lower row) (hm : p.Marked lower plan) (room : Bool) :
    (p.abandon room plan).Agrees lower row := by
  have h := hm.abandoned room
  have hoff : ∀ r, ((p.abandon room plan).heap r).offset = (p.heap r).offset := fun r => by rw [h.record]
  have hdom : ∀ r, ((p.abandon room plan).heap r).domain = (p.heap r).domain := fun r => by rw [h.record]
  have hdir : ∀ r, ((p.abandon room plan).heap r).dirty = (p.heap r).dirty := fun r => by rw [h.record]
  refine ⟨?_, ?_⟩
  · intro r hcur hh hd
    rw [hoff, hdom]
    rw [Record.held, hdom] at hh
    exact ha.stored r (h.current hcur) hh (hdir r ▸ hd)
  · intro o w hmem hw
    rcases ha.row o w (h.net ▸ hmem) hw with ⟨r, hr, hh, hd, hl⟩ | ⟨hf, hd⟩
    · rcases h.gone o r hr with hr' | ⟨hnone, hforg⟩
      · exact .inl ⟨r, hr', by rw [Record.held, hdom]; exact hh, by rw [hdir]; exact hd,
          by rw [hdom]; exact hl⟩
      · refine .inr ⟨hforg hd, fun k hk => ?_⟩
        rw [hnone] at hk
        cases hk
    · refine .inr ⟨h.forgotten o hf, fun k hk => ?_⟩
      rw [hdir]
      exact hd k (h.sub o k hk)

/-- With no change pending the rows are the records. -/
theorem Agrees.exact (ha : p.Agrees lower row) (hi : p.Index)
    (hd : ∀ r, p.current r = true → (p.heap r).dirty = false)
    (hf : ∀ o ∈ p.forgotten, ∃ r, p.byOffset.lookup o = some r) (ho : Ring.Mem firstOffset p.net.usable o)
    (d : String) :
    (∃ w, row o = some w ∧ lower w = d) ↔
      ∃ r, p.byOffset.lookup o = some r ∧ (p.heap r).held = false ∧ (p.heap r).domain = d := by
  have hcur : ∀ r, p.byOffset.lookup o = some r → p.current r = true := by
    intro r hr
    rw [current_iff, (hi.offset o r hr).1]
    exact hr
  constructor
  · rintro ⟨w, hw, rfl⟩
    rcases ha.row o w ho hw with ⟨r, hr, hh, _, hl⟩ | ⟨hfo, hdirty⟩
    · exact ⟨r, hr, hh, hl.symm⟩
    · obtain ⟨r, hr⟩ := hf o hfo
      have h := hdirty r hr
      rw [hd r (hcur r hr)] at h
      cases h
  · rintro ⟨r, hr, hh, rfl⟩
    obtain ⟨w, hw, hl⟩ := ha.stored r (hcur r hr) hh (hd r (hcur r hr))
    rw [(hi.offset o r hr).1] at hw
    exact ⟨w, hw, hl⟩

end
end Pool

/-- What the storage has for the offsets of a range. -/
def Pool.rows (p : Pool) (d : Disk) (o : Nat) : Option String := d.table.lookup (p.net.address o)

section
variable {x : Sys} {plan : Plan} {f g : Family} {p q : Pool} {pp : PoolPlan} (hx : x.Marks)
  (ht : x.phase.taken = some plan) (hp : x.store.pool f = some p) (hpp : plan.pools f = some pp)
include hx ht hp hpp

variable {o : Nat}

omit ht hpp in
theorem Sys.Marks.same_family (hq : x.store.pool g = some q) {o' : Nat} (h : q.net.address o' = p.net.address o) :
    g = f := by
  have h := congrArg Addr.family h
  rwa [q.net.address_family, p.net.address_family, (hx.indexed g q hq).2, (hx.indexed f p hp).2] at h

theorem Sys.Marks.marked_at : p.Marked x.store.casing.lower pp := by
  obtain ⟨q, hq, hm⟩ := rel_some (hx.marked plan ht f) hp
  rw [hpp] at hq
  cases hq
  exact hm

/-- The rows a save writes for an address of a range are those of the range. -/
theorem Sys.Marks.put_at {w : String} (ho : Ring.Mem firstOffset p.net.usable o)
    (h : (p.net.address o, w) ∈ plan.puts) :
    ∃ r ∈ pp.written, (p.heap r).offset = o ∧ (p.heap r).domain = w := by
  obtain ⟨g, q, hq, hmem⟩ := Plan.mem_puts.mp h
  obtain ⟨p', hp', hm⟩ := rel_some_right (hx.marked plan ht g) hq
  rw [hm.puts] at hmem
  obtain ⟨r, hr, he⟩ := mem_map.mp hmem
  obtain ⟨ha, hw⟩ := Prod.mk.inj he
  cases hx.same_family hp hp' ha
  rw [hp] at hp'
  cases hp'
  rw [hpp] at hq
  cases hq
  have hi := (hx.indexed f p hp).1
  have hmem' := (hi.offset _ r ((p.current_iff r).mp (hm.written r hr).1)).2.2
  exact ⟨r, hr, p.net.address_injective (mem_lt_stop hi hmem') (mem_lt_stop hi ho) ha, hw⟩

theorem Sys.Marks.delete_at (h : p.net.address o ∈ plan.deletes) :
    p.net.address o ∈ pp.deletes := by
  obtain ⟨g, q, hq, hmem⟩ := Plan.mem_deletes.mp h
  obtain ⟨p', hp', hm⟩ := rel_some_right (hx.marked plan ht g) hq
  obtain ⟨o', _, ha, _⟩ := hm.deletes _ hmem
  cases hx.same_family hp hp' ha.symm
  rw [hpp] at hq
  cases hq
  exact hmem

theorem Sys.Marks.wrote (d : Disk) (m : Metadata) (clean : Bool) :
    Pool.Wrote pp p (p.rows d) (p.rows (d.saveChanges plan.puts plan.deletes m clean)) := by
  have hm := hx.marked_at ht hp hpp
  have hi := (hx.indexed f p hp).1
  have hother : ∀ o, Ring.Mem firstOffset p.net.usable o → (∀ r ∈ pp.written, (p.heap r).offset ≠ o) →
      ∀ row ∈ plan.puts, row.1 ≠ p.net.address o := by
    rintro o ho hn ⟨a, w⟩ hrow rfl
    obtain ⟨r, hr, he, _⟩ := hx.put_at ht hp hpp ho hrow
    exact hn r hr he
  refine ⟨?_, ?_, ?_⟩
  · intro r hr
    have hc := (p.current_iff r).mp (hm.written r hr).1
    have hmem := (hi.offset _ r hc).2.2
    rw [rows, Disk.saveChanges_table]
    refine Table.lookup_foldl_insert (Plan.mem_puts.mpr ⟨f, pp, hpp, ?_⟩) ?_ _
    · rw [hm.puts]
      exact mem_map.mpr ⟨r, hr, rfl⟩
    · rintro ⟨a, w⟩ hrow rfl
      obtain ⟨k, hk, he, hw⟩ := hx.put_at ht hp hpp hmem hrow
      have hrk : r = k := hm.written_at hk (by rw [he]; exact hc)
      rw [hrk]
      exact hw.symm
  · intro o ho hn hd
    rw [rows, Disk.saveChanges_table, Table.lookup_foldl_insert_other (hother o ho hn),
      Table.lookup_foldl_erase, if_pos (Plan.mem_deletes.mpr ⟨f, pp, hpp, hd⟩)]
  · intro o ho hn hd
    rw [rows, Disk.saveChanges_table, Table.lookup_foldl_insert_other (hother o ho hn),
      Table.lookup_foldl_erase, if_neg fun h => hd (hx.delete_at ht hp hpp h)]
    rfl

end

def Store.InRange (s : Store) (a : Addr) : Prop :=
  ∃ f p o, s.pool f = some p ∧ Ring.Mem firstOffset p.net.usable o ∧ a = p.net.address o

/-- Every row of the storage belongs to an address of a range. -/
def Sys.Known (x : Sys) : Prop := ∀ a w, x.disk.table.lookup a = some w → x.store.InRange a

/-- Neither a reset nor a write waits for the memory to follow. -/
def Phase.settled : Phase → Bool
  | .resetting | .written _ true => false
  | _ => true

variable {ph : Phase} {d : Disk} {x' : Sys} {l : Label} {s : Store} {named : Prop} {used : Nat → Prop}
  {row : Nat → Option String}

theorem Phase.of_not_settled (h : ph.settled = false) : ph = .resetting ∨ ∃ plan, ph = .written plan true := by
  cases ph with
  | resetting => exact .inl rfl
  | written plan ok =>
    cases ok with
    | true => exact .inr ⟨plan, rfl⟩
    | false => cases h
  | _ => cases h

/-- The storage of a later generation than the store's has not been written to. -/
structure Dated (generation : Nat) (d : Disk) (ph : Phase) : Prop where
  older : generation ≤ d.generation
  started : ∀ r g, ph = .started r g → generation ≤ g ∧ g ≤ d.generation
  taken : ∀ plan, ph.taken = some plan → plan.generation = generation
  stale : generation ≠ d.generation → d.table = ∅
  resetting : ph = .resetting → d.table = ∅

theorem Dated.idle {generation : Nat} (h : Dated generation d ph) : Dated generation d .idle :=
  ⟨h.older, nofun, nofun, h.stale, nofun⟩

/-- The storage of the store's own generation agrees with every range. -/
structure Sys.Agreed (x : Sys) : Prop extends Dated x.store.generation x.disk x.phase where
  marks : x.Marks
  known : x.Known
  agrees : x.store.generation = x.disk.generation → x.phase.settled = true → ∀ f p, x.store.pool f = some p →
    p.Agrees x.store.casing.lower (p.rows x.disk)
  committed : x.store.generation = x.disk.generation → ∀ plan, x.phase = .written plan true →
    ∀ f p pp, x.store.pool f = some p → plan.pools f = some pp →
    p.Committed x.store.casing.lower (p.rows x.disk) pp

/-- A write goes to the storage whose generation the save has read. -/
def Sys.inPlace (x : Sys) (l : Label) : Bool :=
  match l, x.phase with
  | .saveWrite true, .collected plan => plan.generation == x.disk.generation
  | _, _ => true

variable {p q : Pool} {x : Sys}

theorem Sys.Known.move (hk : x.Known) (hm : x.Move l x')
    (ht : ∀ a w, x'.disk.table.lookup a = some w → x.disk.table.lookup a = some w ∨ x.store.InRange a) :
    x'.Known := by
  intro a w hw
  obtain ⟨f, p, o, hp, ho, rfl⟩ := (ht a w hw).elim (hk a w) id
  -- the ranges of a store do not move
  obtain ⟨q, hq, he⟩ := rel_some (hm.extends f) hp
  exact ⟨f, q, o, hq, he.net ▸ ho, by rw [he.net]⟩

theorem Sys.Marks.write_known {plan : Plan} (hx : x.Marks) (ht : x.phase.taken = some plan) (d : Disk) (m : Metadata)
    (clean : Bool) (a : Addr) (w : String)
    (h : (d.saveChanges plan.puts plan.deletes m clean).table.lookup a = some w) :
    d.table.lookup a = some w ∨ x.store.InRange a := by
  by_cases hput : ∃ v, (a, v) ∈ plan.puts
  · obtain ⟨v, hv⟩ := hput
    obtain ⟨f, q, hq, hmem⟩ := Plan.mem_puts.mp hv
    obtain ⟨p, hp, hm⟩ := rel_some_right (hx.marked plan ht f) hq
    rw [hm.puts] at hmem
    obtain ⟨r, hr, he⟩ := mem_map.mp hmem
    have hc := (p.current_iff r).mp (hm.written r hr).1
    exact .inr ⟨f, p, _, hp, ((hx.indexed f p hp).1.offset _ r hc).2.2, (Prod.mk.inj he).1.symm⟩
  · left
    have hne : ∀ row ∈ plan.puts, row.1 ≠ a := by
      rintro ⟨b, v⟩ hrow rfl
      exact hput ⟨v, hrow⟩
    rw [Disk.saveChanges_table, Table.lookup_foldl_insert_other hne, Table.lookup_foldl_erase] at h
    split at h
    · cases h
    · exact h

theorem Pool.rows_net (h : q.net = p.net) (d : Disk) : q.rows d = p.rows d := by
  funext o
  rw [rows, rows, h]

theorem Pool.rows_empty (h : d.table = ∅) (o : Nat) : p.rows d o = none := by
  rw [rows, h]
  rfl

section
variable (hq : p.Query s named used q) (hs : s.saved = true) (hn : named) (hi : p.Index)
include hq hs hn hi

theorem Pool.Query.agrees (ha : p.Agrees s.casing.lower row) :
    q.Agrees s.casing.lower row := by
  rcases hq.flags hs hn hi with h | ⟨r, o, h⟩
  · exact ha.same h.rows
  · exact ha.added h

end

namespace Sys

variable {x : Sys}

variable {l : Label} {r : Request}

section
variable (hx : x.Agreed)
include hx

theorem Agreed.query {s : Store} (hm : x.Move l { x with store := s }) (hn : l.named)
    (hq : x.store.Queried l.named (x.uses l) s) : Agreed { x with store := s } where
  toDated := by dsimp only; rw [hq.generation]; exact hx.toDated
  marks := hx.marks.move hm hn
  known := hx.known.move hm fun a w h => .inl h
  agrees := by
    dsimp only
    rw [hq.generation, hq.casing]
    intro hg hr f q hp
    obtain ⟨p, hp, hpq⟩ := hq.pool_some hp
    rw [rows_net hpq.net]
    exact hpq.agrees hx.marks.saved hn (hx.marks.indexed f p hp).1 (hx.agrees hg hr f p hp)
  committed := by
    dsimp only
    rw [hq.generation, hq.casing]
    intro hg plan hph f q pp hp hpp
    obtain ⟨p, hp, hpq⟩ := hq.pool_some hp
    rw [rows_net hpq.net]
    have hc := hx.committed hg plan hph f p pp hp hpp
    rcases hpq.flags hx.marks.saved hn (hx.marks.indexed f p hp).1 with h | ⟨r, o, h⟩
    · exact hc.same h
    · exact hc.added h (hx.marks.marked_at (by rw [hph]; rfl) hp hpp)

/-- Only the ranges changed, and the rows are still compared with the same. -/
theorem Agreed.sweep {found : Family → List Removal}
    (hm : x.Move .sweepApply { x with store := x.store.expire found, found := none }) :
    Agreed { x with store := x.store.expire found, found := none } where
  toDated := hx.toDated
  marks := hx.marks.move hm trivial
  known := hx.known.move hm fun a w h => .inl h
  agrees := by
    intro hg hr f q hp
    obtain ⟨p, hp', rfl⟩ := expire_pool hx.marks.saved hp
    exact (hx.agrees hg hr f p hp').same (p.sameFlags_expired _).rows
  committed := by
    intro hg plan hph f q pp hp hpp
    obtain ⟨p, hp', rfl⟩ := expire_pool hx.marks.saved hp
    exact (hx.committed hg plan hph f p pp hp' hpp).same (p.sameFlags_expired _)

/-- The generation a save has read becomes that of the store. -/
theorem Agreed.renew {g : Nat} (hph : x.phase = .started r g)
    (hmarks : Marks { x with store := x.store.renew g, phase := .idle })
    (hknown : Known { x with store := x.store.renew g, phase := .idle }) :
    Agreed { x with store := x.store.renew g, phase := .idle } := by
  obtain ⟨hlo, hhi⟩ := hx.started r g hph
  have hgen := x.store.renew_generation g
  have hstale : g ≠ x.disk.generation → x.disk.table = ∅ := fun hne => hx.stale (by omega)
  refine ⟨⟨hgen.symm ▸ hhi, nofun, nofun, hgen.symm ▸ hstale, nofun⟩, hmarks, hknown, ?_, nofun⟩
  intro hg _ f q hq
  dsimp only at hg hq ⊢
  rw [hgen] at hg
  rw [x.store.renew_casing]
  obtain ⟨p, hp, ⟨he, rfl⟩ | ⟨hne, rfl⟩⟩ := renew_pool hq
  · exact hx.agrees (he ▸ hg) (by rw [hph]; rfl) f q hp
  · exact p.agrees_resave (rows_empty (hx.stale (by omega)))

theorem Agreed.collect (hph : x.phase = .idle) {visit : Family → List Nat} {tick : Nat} {ph : Phase}
    (hcase : ph = .idle ∨ ph = .collected (x.store.plan r visit tick).2)
    (hmarks : Marks { x with store := (x.store.plan r visit tick).1, phase := ph })
    (hknown : Known { x with store := (x.store.plan r visit tick).1, phase := ph }) :
    Agreed { x with store := (x.store.plan r visit tick).1, phase := ph } where
  toDated := by
    rcases hcase with rfl | rfl
    · exact hx.toDated.idle
    · refine ⟨hx.older, nofun, fun plan h => ?_, hx.stale, nofun⟩
      cases h
      rfl
  marks := hmarks
  known := hknown
  agrees := by
    intro hg _ f q hq
    obtain ⟨p, hp, rfl, _⟩ := plan_pool hq
    have hs := p.sameRows_snapshot r.clean (r.roomOf f) (visit f) tick
    rw [rows_net hs.net]
    exact (hx.agrees hg (by rw [hph]; rfl) f p hp).same hs
  committed := by
    intro _ plan h
    dsimp only at h
    rcases hcase with rfl | rfl <;> cases h

theorem Agreed.write {plan : Plan} (hph : x.phase = .collected plan) (hin : plan.generation = x.disk.generation)
    (hm : x.Move (.saveWrite true)
      { x with
        disk := x.disk.saveChanges plan.puts plan.deletes plan.metadata plan.request.clean
        phase := .written plan true }) :
    Agreed { x with
      disk := x.disk.saveChanges plan.puts plan.deletes plan.metadata plan.request.clean
      phase := .written plan true } := by
  have ht : x.phase.taken = some plan := by rw [hph]; rfl
  have hgen := x.disk.saveChanges_generation plan.puts plan.deletes plan.metadata plan.request.clean
  have heq : x.store.generation = x.disk.generation := (hx.taken plan ht).symm.trans hin
  refine ⟨⟨hgen.symm ▸ hx.older, nofun, ?_, fun hne => absurd (heq.trans hgen.symm) hne, nofun⟩,
    hx.marks.move hm trivial, hx.known.move hm (hx.marks.write_known ht _ _ _), nofun, ?_⟩
  · intro q hq
    cases hq
    exact hx.taken plan ht
  · intro _ q hq f p pp hp hpp
    cases hq
    have ha := hx.agrees heq (by rw [hph]; rfl) f p hp
    exact ha.write (hx.marks.marked_at ht hp hpp) (hx.marks.indexed f p hp).1 (hx.marks.wrote ht hp hpp _ _ _)

theorem Agreed.move {x' : Sys} (hm : x.Move l x') (hn : l.named) (hin : x.inPlace l = true) : x'.Agreed := by
  have hmarks := hx.marks.move hm hn
  have hmove := hm
  cases hm with
  | query l s _ hq => exact hx.query hmove hn hq
  | scan | close => exact ⟨hx.toDated, hmarks, hx.known, hx.agrees, hx.committed⟩
  | sweep found _ => exact hx.sweep hmove
  | makeRoom _ _ _ hs | resetUnsaved _ _ hs => rw [hx.marks.saved] at hs; cases hs
  | start r hp =>
    refine ⟨⟨hx.older, fun _ _ h => ?_, nofun, hx.stale, nofun⟩, hmarks, hx.known,
      fun hg _ => hx.agrees hg (by rw [hp]; rfl), nofun⟩
    cases h
    exact ⟨hx.older, Nat.le_refl _⟩
  | refuse r generation visit tick hp =>
    exact ⟨hx.toDated.idle, hmarks, hx.known, fun hg _ => hx.agrees hg (by rw [hp]; rfl), nofun⟩
  | spare r generation visit tick hp =>
    exact hx.renew hp hmarks (hx.known.move hmove fun a w h => .inl h)
  | collect r generation visit tick hp =>
    have hspare : x.Move (.saveCollect visit tick)
        { x with store := x.store.renew generation, phase := .idle } := .spare r generation visit tick hp
    have hy := hx.renew hp (hx.marks.move hspare trivial) (hx.known.move hspare fun a w h => .inl h)
    refine hy.collect rfl ?_ hmarks (hx.known.move hmove fun a w h => .inl h)
    split
    · exact .inl rfl
    · exact .inr rfl
  | fail plan hp =>
    refine ⟨⟨hx.older, nofun, fun q hq => ?_, hx.stale, nofun⟩, hmarks, hx.known,
      fun hg _ => hx.agrees hg (by rw [hp]; rfl), nofun⟩
    cases hq
    exact hx.taken plan (by rw [hp]; rfl)
  | write plan hp =>
    simp only [inPlace, hp, beq_iff_eq] at hin
    exact hx.write hp hin hmove
  | complete plan hp =>
    refine ⟨hx.toDated.idle, hmarks, hx.known.move hmove (fun a w h => .inl h), ?_, nofun⟩
    intro hg _ f q hq
    obtain ⟨p, hpool, rfl⟩ := complete_pool hq
    obtain ⟨pp, hpp, hma⟩ := rel_some (hx.marks.marked plan (by rw [hp]; rfl) f) hpool
    rw [hpp, elim_some, rows_net (p.thins_complete pp).net]
    exact (hx.committed hg plan hp f p pp hpool hpp).complete hma
  | abandon plan hp =>
    refine ⟨hx.toDated.idle, hmarks, hx.known.move hmove (fun a w h => .inl h), ?_, nofun⟩
    intro hg _ f q hq
    obtain ⟨p, hpool, rfl⟩ := abandon_pool hq
    obtain ⟨pp, hpp, hma⟩ := rel_some (hx.marks.marked plan (by rw [hp]; rfl) f) hpool
    rw [hpp, elim_some, rows_net (p.thins_abandon _ pp).net]
    exact (hx.agrees hg (by rw [hp]; rfl) f p hpool).abandon hma _
  | resetStorage hp =>
    exact ⟨⟨hx.older, nofun, nofun, fun _ => rfl, fun _ => rfl⟩, hmarks, nofun, nofun, nofun⟩
  | resetFailed hp => exact hx
  | resetMemory hp =>
    have hempty := hx.resetting hp
    refine ⟨hx.toDated.idle, hmarks, hx.known.move hmove (fun a w h => .inl h), ?_, nofun⟩
    intro hg _ f q hq
    obtain ⟨p, hpool, rfl⟩ := map_eq_some_iff.mp hq
    refine ⟨fun r hc => ?_, fun o w _ hw => ?_⟩
    · rw [current_iff] at hc
      cases hc
    · rw [rows_empty hempty] at hw
      cases hw
  | recreate =>
    have hlt : x.store.generation ≠ x.disk.generation + 1 := by have := hx.older; omega
    refine ⟨⟨Nat.le_succ_of_le hx.older, fun r g h => ?_, hx.taken, fun _ => rfl, fun _ => rfl⟩, hmarks, nofun,
      fun h => absurd h hlt, fun h => absurd h hlt⟩
    obtain ⟨h₁, h₂⟩ := hx.started r g h
    exact ⟨h₁, Nat.le_succ_of_le h₂⟩

end

end Sys

variable {x : Sys} {cfg : Config}

theorem Loaded.opened (h : Loaded cfg x) : Opened cfg x := by
  obtain ⟨d, rfl⟩ := h
  exact ⟨_, _, _, _, _, rfl⟩

theorem Loaded.agreed (h : Loaded cfg x) : x.Agreed := by
  have hmarks := h.opened.marks
  obtain ⟨d, rfl⟩ := h
  have hcas : (loaded cfg d).store.casing = cfg.casing := (rows_foldl cfg d.generation d.rows).casing
  have hgen : (loaded cfg d).store.generation = (loaded cfg d).disk.generation := by
    have h₁ : (loaded cfg d).store.generation = d.generation := by
      show (d.rows.foldl loadRow (Store.new cfg true d.generation)).generation = d.generation
      rw [(rows_foldl cfg d.generation d.rows).frame]
      rfl
    have h₂ : (loaded cfg d).disk.generation = d.generation :=
      foldl_keep (f := Disk.delete) (fun d' : Disk => d'.generation = d.generation) (fun _ _ _ h => h) rfl
    rw [h₁, h₂]
  refine ⟨⟨Nat.le_of_eq hgen, nofun, nofun, fun h => absurd hgen h, nofun⟩, hmarks, ?_, ?_, nofun⟩
  · intro a w hw
    obtain ⟨_, _, f, n, o, hn, ho, rfl⟩ := loaded_table.mp hw
    obtain ⟨p, hp, rfl⟩ := loaded_range d hn
    exact ⟨f, p, o, hp, ho, rfl⟩
  · intro _ _ f p hp
    obtain ⟨hl, hn⟩ := loaded_from hp
    rw [hcas]
    refine ⟨fun r hc hh _ => ?_, fun o w ho hw => ?_⟩
    · have hlook := (p.current_iff r).mp hc
      obtain ⟨w, hw, hdom⟩ := hl.record _ r hlook hh
      refine ⟨w, loaded_table.mpr ⟨hw, ?_, f, p.net, _, hn, (hl.index.offset _ r hlook).2.2, rfl⟩, hdom⟩
      rintro rfl
      rw [(cfg.casing.lower_eq_empty "").mpr rfl] at hdom
      rw [Record.held, ← hdom] at hh
      cases hh
    · obtain ⟨hw', hne, _⟩ := loaded_table.mp hw
      obtain ⟨r, hr, hh, hdom⟩ := hl.row o w ho hw' hne
      exact .inl ⟨r, hr, hh, hl.plain.settled r, hdom⟩

/-- The pair of a record with a domain that is in memory. -/
def Store.Holds (s : Store) (a : Addr) (domain : String) : Prop :=
  ∃ f p r, s.pool f = some p ∧ p.current r = true ∧ (p.heap r).held = false ∧
    a = p.net.address (p.heap r).offset ∧ (p.heap r).domain = domain

/-- With no change pending the storage has exactly the records of the memory. -/
theorem Sys.Agreed.exact (hx : x.Agreed) (hg : x.store.generation = x.disk.generation) (hph : x.phase = .idle)
    (hd : ∀ f p, x.store.pool f = some p → (∀ r, p.current r = true → (p.heap r).dirty = false) ∧
      ∀ o ∈ p.forgotten, ∃ r, p.byOffset.lookup o = some r)
    (a : Addr) (d : String) :
    (∃ w, x.disk.table.lookup a = some w ∧ x.store.casing.lower w = d) ↔ x.store.Holds a d := by
  have hex : ∀ f p, x.store.pool f = some p → ∀ o, Ring.Mem firstOffset p.net.usable o →
      ((∃ w, p.rows x.disk o = some w ∧ x.store.casing.lower w = d) ↔
        ∃ r, p.byOffset.lookup o = some r ∧ (p.heap r).held = false ∧ (p.heap r).domain = d) := by
    intro f p hp o ho
    have ha := hx.agrees hg (by rw [hph]; rfl) f p hp
    exact ha.exact (hx.marks.indexed f p hp).1 (hd f p hp).1 (hd f p hp).2 ho d
  constructor
  · rintro ⟨w, hw, hl⟩
    obtain ⟨f, p, o, hp, ho, rfl⟩ := hx.known a w hw
    obtain ⟨r, hr, hh, hdom⟩ := (hex f p hp o ho).mp ⟨w, hw, hl⟩
    have hoff := ((hx.marks.indexed f p hp).1.offset o r hr).1
    exact ⟨f, p, r, hp, (p.current_iff r).mpr (by rw [hoff]; exact hr), hh, by rw [hoff], hdom⟩
  · rintro ⟨f, p, r, hp, hc, hh, rfl, hdom⟩
    have hl := (p.current_iff r).mp hc
    have hm := ((hx.marks.indexed f p hp).1.offset _ r hl).2.2
    exact (hex f p hp _ hm).mpr ⟨r, hl, hh, hdom⟩

/-- A whole `save(saveRequest{})` that succeeds, with no other step in between. -/
def Sys.save (x : Sys) (visit : Family → List Nat) (tick : Nat) : Option Sys :=
  (x.step (.saveStart {})).bind fun x =>
    (x.step (.saveCollect visit tick)).bind fun x =>
      match x.phase with
      | .idle => some x
      | _ => (x.step (.saveWrite true)).bind fun x => x.step .saveComplete

theorem Sys.save_cases {x' : Sys} {visit : Family → List Nat} {tick : Nat} (hc : x.store.closed = false)
    (h : x.save visit tick = some x') :
    let y := (x.store.renew x.disk.generation).plan {} visit tick
    x.phase = .idle ∧ x.visits visit = true ∧
      (y.2.empty = true ∧ x' = { x with store := y.1, phase := .idle } ∨
        y.2.empty = false ∧
          x' = { x with
            store := y.1.complete y.2
            disk := x.disk.saveChanges y.2.puts y.2.deletes y.2.metadata y.2.request.clean
            phase := .idle }) := by
  obtain ⟨y₁, h₁, h⟩ := bind_eq_some_iff.mp h
  obtain ⟨y₂, h₂, h⟩ := bind_eq_some_iff.mp h
  have hph : x.phase = .idle := by
    simp only [step] at h₁
    split at h₁
    next hp => exact hp
    · cases h₁
  simp only [step, hph, Bool.not_false, Bool.true_or, Bool.and_true] at h₁
  obtain ⟨_, h₁⟩ := ite_none_right_eq_some.mp h₁
  cases h₁
  simp only [step] at h₂
  obtain ⟨hv, h₂⟩ := ite_none_right_eq_some.mp h₂
  cases h₂
  refine ⟨hph, hv, ?_⟩
  simp only [collect, hc, Bool.false_and, Bool.false_eq_true, if_false, isSome_none,
    Bool.or_self] at h
  cases he : ((x.store.renew x.disk.generation).plan {} visit tick).2.empty with
  | true =>
    simp only [he, if_true] at h
    cases h
    exact .inl ⟨rfl, rfl⟩
  | false =>
    simp only [he, false_eq_true, if_false, step, bind_some, if_true] at h
    cases h
    exact .inr ⟨rfl, rfl⟩

/-- The steps whose writes go where the save has looked. -/
def Sys.careful (x : Sys) (l : Label) : Prop := l.named ∧ x.inPlace l = true

instance (x : Sys) (l : Label) : Decidable (x.careful l) := inferInstanceAs (Decidable (_ ∧ _))

theorem agreed_run {past : List (Sys × Label)} (hrun : (machine (Loaded cfg)).Run past x)
    (hal : System.Along careful past) :
    x.Agreed ∧ x.store.casing = cfg.casing := by
  refine hrun.invariant (I := fun x => x.Agreed ∧ x.store.casing = cfg.casing)
    (fun x (hx : Loaded cfg x) => ⟨hx.agreed, Started.casing (.inr hx.opened)⟩) ?_ hal
  rintro x x' l ⟨hx, hc⟩ ⟨hn, hin⟩ hs
  have hm := step_move hs
  exact ⟨hx.move hm hn hin, hm.casing.trans hc⟩

namespace Pool

section
variable {lower : String → String} {p : Pool} {clean room : Bool} {visit : List Nat} {tick : Nat}

variable {q : Pool} {pp : PoolPlan} (hq : p.Quiet lower) (hi : p.Index)
  (hs : p.snapshot clean room visit tick = (q, pp))
include hq hi hs

/-- A save with nothing to write found nothing pending. -/
theorem Quiet.idle (hp : pp.puts = []) (hd : pp.deletes = []) :
    (∀ r, q.current r = true → (q.heap r).dirty = false) ∧ ∀ o ∈ q.forgotten, ∃ r, q.byOffset.lookup o = some r := by
  have hm := hq.snapshot hi clean room visit tick
  have hqueue := fun r => p.snapshot_queue (r := r) clean room visit tick
  rw [hs] at hm hqueue
  obtain ⟨hr, hw⟩ := hm.empty hp hd
  refine ⟨fun r hc => eq_false_iff.mpr fun hdirty => ?_, fun o ho => ?_⟩
  · rcases hm.queued r hc hdirty with h | h
    · obtain ⟨c, hc, _⟩ := (hm.marked r).mp (hqueue r h)
      rw [hr] at hc
      cases hc
    · rw [hw] at h
      cases h
  · rcases hm.given o ho with h | ⟨r, hr, _⟩
    · rw [hd] at h
      cases h
    · exact ⟨r, hr⟩

/-- A save completed at once leaves nothing pending. -/
theorem Quiet.completed (r : Nat) (hc : (q.complete pp).current r = true) : ((q.complete pp).heap r).dirty = false := by
  have hm := hq.snapshot hi clean room visit tick
  have hqueue := fun r => p.snapshot_queue (r := r) clean room visit tick
  have hunused := fun c => p.snapshot_unused (c := c) clean room visit tick
  rw [hs] at hm hqueue hunused
  have h := hm.completed
  by_cases hr : (q.heap r).removing = true
  · -- a record to be removed is still there only if it was used meanwhile
    obtain ⟨_, c, hmem, rfl, hne⟩ := h.redone r hc hr (h.unmarked r)
    exact absurd (hunused c hmem) hne
  rw [h.plain r (eq_false_iff.mpr hr), and_eq_false_iff, decide_eq_false_iff_not, Decidable.not_not]
  by_cases hd : (q.heap r).dirty = true
  · rcases hm.queued r (h.current hc) hd with h | h
    · exact absurd (hqueue r h) hr
    · exact .inr h
  · exact .inl (eq_false_iff.mpr hd)

end
end Pool

/-- In every run whose writes go to the storage they were collected for, a save
that nothing interrupts leaves in the storage exactly what is in memory. -/
theorem save_leaves_memory (cfg : Config) (past : List (Sys × Label)) (x x' : Sys)
    (hrun : (machine (Loaded cfg)).Run past x) (hal : System.Along careful past)
    (hopen : x.store.closed = false) (visit : Family → List Nat) (tick : Nat)
    (hsave : x.save visit tick = some x') (a : Addr) (d : String) :
    (∃ w, x'.disk.table.lookup a = some w ∧ cfg.casing.lower w = d) ↔ x'.store.Holds a d := by
  obtain ⟨hx, hcas⟩ := agreed_run hrun hal
  obtain ⟨hph, hv, hcase⟩ := save_cases hopen hsave
  have hm₁ : x.Move (.saveStart {}) { x with phase := .started {} x.disk.generation } := .start {} hph nofun
  have hx₁ := hx.move hm₁ trivial rfl
  have hm₂ := Sys.Move.collect (x := { x with phase := .started {} x.disk.generation })
    {} x.disk.generation visit tick rfl hv (fun h => by rw [show _ = _ from hopen] at h; cases h)
  have hx₂ := hx₁.move hm₂ trivial rfl
  have hcas₂ := hm₂.casing.trans hcas
  have hquiet : ∀ f p, (x.store.renew x.disk.generation).pool f = some p →
      p.Quiet x.store.casing.lower ∧ p.Index := fun f p hp =>
    ⟨hx₁.marks.renewed rfl hp, ((x.store.thins_renew _).indexed hx.marks.indexed f p hp).1⟩
  have hgen := x.store.renew_generation x.disk.generation
  rcases hcase with ⟨he, rfl⟩ | ⟨he, rfl⟩
  · simp only [he, if_true] at hx₂ hcas₂
    rw [← hcas₂]
    refine hx₂.exact hgen rfl (fun f q hq => ?_) a d
    obtain ⟨p, hp, rfl, hpp⟩ := plan_pool hq
    obtain ⟨hpu, hde, _⟩ := Plan.pool_empty he hpp
    exact (hquiet f p hp).1.idle (hquiet f p hp).2 rfl hpu hde
  · simp only [he, false_eq_true, if_false] at hx₂ hcas₂
    set planned := (x.store.renew x.disk.generation).plan {} visit tick
    have hm₃ := Sys.Move.write (x := { x with
      store := planned.1
      phase := .collected planned.2 }) _ rfl
    have hx₃ := hx₂.move hm₃ trivial (beq_iff_eq.mpr hgen)
    have hm₄ := Sys.Move.complete (x := { x with
      store := planned.1
      disk := x.disk.saveChanges planned.2.puts planned.2.deletes planned.2.metadata planned.2.request.clean
      phase := .written planned.2 true }) _ rfl
    have hx₄ := hx₃.move hm₄ trivial rfl
    rw [← hcas₂]
    refine hx₄.exact (hgen.trans (x.disk.saveChanges_generation _ _ _ _).symm) rfl (fun f q hq => ?_) a d
    · obtain ⟨p', hp', rfl⟩ := complete_pool hq
      obtain ⟨p, hp, rfl, hpp⟩ := plan_pool hp'
      obtain ⟨hqu, hi⟩ := hquiet f p hp
      rw [hpp, elim_some]
      refine ⟨fun r hr => hqu.completed hi rfl r hr, ?_⟩
      rw [(hqu.snapshot hi _ _ _ _).completed.forgotten]
      intro o ho
      cases ho

/-- The state a list of labels leads to from an empty file. -/
def loadedRun (cfg : Config) (ls : List Label) : Option Sys :=
  (machine (Loaded cfg)).exec ls (.loaded cfg ⟨∅, none, none, 0⟩)

theorem loadedRun_run {cfg : Config} {ls : List Label} {x : Sys} (h : loadedRun cfg ls = some x) :
    (machine (Loaded cfg)).Run
      ((machine (Loaded cfg)).trace ls (.loaded cfg ⟨∅, none, none, 0⟩) []) x :=
  System.run_exec (.start _ ⟨_, rfl⟩) h

/-- A save fails, the next one writes what it left. -/
theorem save_leaves_memory_slash30 :
    ∃ x x', loadedRun slash30
        [.saveStart {}, .saveCollect (fun _ => []) 864002, .saveWrite true, .saveComplete,
          .allocate .inet4 "A.example" 864003,
          .saveStart {}, .saveCollect (fun _ => [2]) 864004, .saveWrite false, .saveComplete] = some x ∧
      x.save (fun _ => [2]) 864005 = some x' ∧
      x'.store.Holds ⟨.inet4, 3323068418, ""⟩ "a.example" := by
  let ls : List Label := [.saveStart {}, .saveCollect (fun _ => []) 864002, .saveWrite true, .saveComplete,
    .allocate .inet4 "A.example" 864003,
    .saveStart {}, .saveCollect (fun _ => [2]) 864004, .saveWrite false, .saveComplete]
  let x := (loadedRun slash30 ls).get (by decide +kernel)
  let x' := (x.save (fun _ => [2]) 864005).get (by decide +kernel)
  have hx : loadedRun slash30 ls = some x := (some_get _).symm
  have hx' : x.save (fun _ => [2]) 864005 = some x' := (some_get _).symm
  refine ⟨x, x', hx, hx', ?_⟩
  refine (save_leaves_memory slash30 _ x x' (loadedRun_run hx)
    (System.along_exec (by decide +kernel)) (by decide +kernel) _ _ hx' _ _).mp ?_
  exact ⟨"a.example", by decide +kernel, by decide +kernel⟩

/-- The reserve is opened, `a` gets the only address and is saved to a file that
was recreated meanwhile. The save that makes room for another domain finds the
new generation and fails: `a` is to be written again, so it is given up without
a note that its row is to be deleted. -/
def recreatedFile : List Label :=
  [.saveStart {}, .saveCollect (fun _ => []) 864002, .saveWrite true, .saveComplete,
    .allocate .inet4 "a" 864003,
    .saveStart {}, .saveCollect (fun _ => [2]) 864004, .recreate, .saveWrite true, .saveComplete,
    .saveStart { room := some .inet4 }, .saveCollect (fun _ => [2]) 864005, .saveWrite false, .saveComplete]

theorem saved_row_outlives_record :
    ∃ x x', (machine (Loaded slash30)).Reachable x ∧ x.store.closed = false ∧
      x.save (fun _ => []) 864006 = some x' ∧
      x'.disk.table.lookup ⟨.inet4, 3323068418, ""⟩ = some "a" ∧
      ¬ x'.store.Holds ⟨.inet4, 3323068418, ""⟩ "a" := by
  let x := (loadedRun slash30 recreatedFile).get (by decide +kernel)
  let x' := (x.save (fun _ => []) 864006).get (by decide +kernel)
  refine ⟨x, x', ⟨_, loadedRun_run (some_get _).symm⟩, by decide +kernel, (some_get _).symm,
    by decide +kernel, ?_⟩
  rintro ⟨f, p, r, hp, hc, _⟩
  have hempty : ∀ f, ((x'.store.pool f).map fun p => p.byOffset.keys).getD [] = [] := by
    intro f
    cases f <;> decide +kernel
  have hk := hempty f
  rw [hp] at hk
  have hmem : (p.heap r).offset ∈ p.byOffset.keys :=
    mem_keys.mp (lookup_isSome.mp (by rw [(p.current_iff r).mp hc]; rfl))
  rw [show p.byOffset.keys = [] from hk] at hmem
  cases hmem

end SingBox.FakeIP
