import SingBox.Lib.Rank
import SingBox.FakeIP.Saves

/-!
# Why a record leaves the memory

A record is chosen by a sweep or by a save that makes room, its row is deleted,
and only then it goes, unless it was used since. The choice may lie far back: the
candidates are carried through the list of expired records and the plan of a
save, so the invariant speaks of the past of the run.
-/
namespace SingBox.FakeIP

open SingBox.Lib List Option Bool Store

namespace Pool

variable {p : Pool} {r : Nat}

theorem current_eq_of_offset {k : Nat} (hr : p.current r = true) (hk : p.current k = true)
    (h : (p.heap r).offset = (p.heap k).offset) : r = k := by
  rw [current_iff] at hr hk
  rw [h, hk] at hr
  exact (some.inj hr).symm

variable {q : Pool}

/-- A record goes when its removal is finished only if it was not used since. -/
theorem Finished.gone {c : Removal} (h : Finished c p q) (hr : p.current r = true) :
    q.current r = true ∨ (c.record = r ∧ (p.heap r).lastUse = c.lastUse) := by
  by_cases hc : r = c.record ∧ (p.heap c.record).lastUse = c.lastUse
  · exact .inr ⟨hc.1.symm, hc.1 ▸ hc.2⟩
  · left
    rw [current_iff] at hr ⊢
    rw [h.same]
    exact h.kept _ r hr (not_and_or.mp hc)

/-- What is gone when a save is completed was to be removed and not used since. -/
theorem complete_gone {plan : PoolPlan} (hr : p.current r = true) (hg : (p.complete plan).current r = false) :
    ∃ c ∈ plan.removals, c.record = r ∧ (p.heap r).lastUse = c.lastUse := by
  have hcur : ({ plan.written.foldl settle p with forgotten := [] } : Pool).current r = true :=
    ((SameIndex.foldl sameIndex_settle plan.written p).current r).trans hr
  have hlast : ((plan.written.foldl settle p).heap r).lastUse = (p.heap r).lastUse := by
    rw [foldl_settle]
    dsimp only
    split <;> rfl
  have h := foldl_keep (f := finishRemoval) (l := plan.removals)
    (fun q : Pool => (q.heap r).lastUse = (p.heap r).lastUse ∧
      (q.current r = true ∨ ∃ c ∈ plan.removals, c.record = r ∧ (p.heap r).lastUse = c.lastUse))
    ?_ (b := { plan.written.foldl settle p with forgotten := [] }) ⟨hlast, .inl hcur⟩
  · refine h.2.resolve_left fun hc => ?_
    have hc' : (p.complete plan).current r = true := by
      unfold complete
      dsimp only
      rw [(sameIndex_openReserve _ plan.reserve plan.last).current]
      exact hc
    rw [hg] at hc'
    cases hc'
  · rintro q c hc ⟨hq, hcase⟩
    have hf := q.finished c
    refine ⟨by rw [hf.same]; exact hq, ?_⟩
    rcases hcase with hcur | hex
    · exact (hf.gone hcur).imp_right fun ⟨he, hl⟩ => ⟨c, hc, he, hq ▸ hl⟩
    · exact .inr hex

/-- What a query does to the records that are there. -/
structure Keeps (p q : Pool) : Prop where
  net : q.net = p.net
  expired : q.expired = p.expired
  current : ∀ r, p.current r = true → q.current r = true
  offset : ∀ r, p.current r = true → (q.heap r).offset = (p.heap r).offset

theorem Query.keeps {s : Store} {named : Prop} {used : Nat → Prop} (h : Query s named used p q) (hi : p.Index) :
    Keeps p q := by
  cases h with
  | keep => exact ⟨rfl, rfl, fun _ h => h, fun _ _ => rfl⟩
  | touch r stamp =>
    have hs := p.sameIndex_touch r stamp
    exact ⟨rfl, rfl, fun k hk => (hs.current k).trans hk, fun k _ => hs.offset k⟩
  | walk q _ hw =>
    rw [hw.frame]
    exact ⟨rfl, rfl, fun _ h => h, fun _ _ => rfl⟩
  | assign t domain stamp _ hw _ hfree =>
    have hheap : ∀ k, p.current k = true →
        ((t.advance s.saved).assign s.saved domain t.next stamp).heap k = p.heap k := by
      intro k hk
      rw [hw.assigned, if_neg (heap_lt hi ((p.current_iff k).mp hk))]
    refine ⟨hw.net, by rw [hw.frame]; rfl, fun k hk => ?_, fun k hk => by rw [hheap k hk]⟩
    rw [current_iff, hheap k hk]
    have hl := (p.current_iff k).mp hk
    have ho : (p.heap k).offset ≠ t.next := by
      intro he
      rw [← hw.byOffset, he, hfree] at hl
      cases hl
    show (t.byOffset.insert t.next t.fresh).lookup (p.heap k).offset = some k
    rw [AList.lookup_insert_ne ho, hw.byOffset]
    exact hl

/-- The records of a range. -/
def records (p : Pool) : List Nat := p.byOffset.keys.filterMap p.byOffset.lookup

/-- How many records with a domain were used longer ago. -/
def olderNamed (p : Pool) (r : Nat) : Nat :=
  p.records.countP fun k => !(p.heap k).held && decide ((p.heap k).lastUse < (p.heap r).lastUse)

section
variable {p : Pool} {visit : List Nat} {tick : Nat} {c : Removal}

variable {protect : Nat}

theorem mem_candidates (h : c ∈ p.candidates visit protect tick) :
    ∃ r ∈ p.visited visit, c = p.removal r ∧ protect ≤ since tick (p.heap r).lastUse := by
  obtain ⟨r, hr, rfl⟩ := mem_map.mp h
  obtain ⟨hv, hc⟩ := mem_filter.mp hr
  simp only [and_eq_true, decide_eq_true_eq] at hc
  exact ⟨r, hv, rfl, hc.2⟩

theorem mem_oldest {count : Nat} (h : c ∈ p.oldest visit count protect tick) :
    c ∈ p.candidates visit protect tick ∨
      (p.candidates visit protect tick = [] ∧ protect = 0 ∧ c ∈ p.heldBack visit) := by
  unfold oldest at h
  dsimp only at h
  have hmem := mem_of_mem_take h
  rw [(perm_insertionSort _ _).mem_iff] at hmem
  split at hmem
  next he => exact .inr ⟨he.1, he.2, hmem⟩
  · exact .inl hmem

theorem mem_findExpired (hp : p.Index) (h : c ∈ p.findExpired visit idleTicks protectTicks tick) :
    p.current c.record = true ∧ (p.heap c.record).lastUse = c.lastUse ∧
      (idleTicks ≤ since tick c.lastUse ∨ (p.net.limit < p.size ∧ protectTicks ≤ since tick c.lastUse)) := by
  unfold findExpired at h
  dsimp only at h
  split at h
  next hlim =>
    have hsize : p.net.limit < p.size := Nat.lt_of_lt_of_le hlim (Nat.sub_le _ _)
    rcases mem_oldest h with hc | ⟨_, hz, _⟩
    · obtain ⟨r, hr, rfl, hs⟩ := mem_candidates hc
      exact ⟨current_of_visited hp hr, rfl, .inr ⟨hsize, hs⟩⟩
    · exact absurd hz (by decide)
  · obtain ⟨r, hr, rfl⟩ := mem_map.mp h
    obtain ⟨hv, hc⟩ := mem_filter.mp hr
    simp only [and_eq_true, decide_eq_true_eq] at hc
    exact ⟨current_of_visited hp hv, rfl, .inl hc.2⟩

theorem room_pos (p : Pool) : 0 < p.room := Nat.lt_of_lt_of_le Nat.one_pos (Nat.le_max_right _ _)

/-- What makes room is among the records with a domain that were used longest ago. -/
theorem mem_oldest_room (hp : p.Index) (hv : visit.Perm p.byOffset.keys)
    (hun : ∀ r, (p.heap r).removing = false) (h : c ∈ p.oldest visit p.room 0 tick) :
    p.current c.record = true ∧ (p.heap c.record).lastUse = c.lastUse ∧ p.olderNamed c.record < p.room := by
  have hcand : p.candidates visit 0 tick = ((p.visited visit).filter fun r => !(p.heap r).held).map p.removal := by
    unfold candidates
    congr 1
    refine filter_congr fun r _ => ?_
    simp [hun r]
  have hrec : (p.visited visit).Perm p.records := hv.filterMap _
  have hcount : ∀ t, (p.candidates visit 0 tick).countP (fun b => decide (b.lastUse < t)) =
      p.records.countP fun k => !(p.heap k).held && decide ((p.heap k).lastUse < t) := by
    intro t
    rw [hcand, countP_map, countP_filter, ← hrec.countP_eq]
    refine countP_congr fun k _ => ?_
    simp only [Function.comp, removal, and_eq_true]
    exact and_comm
  rcases mem_oldest h with hc | ⟨hnil, _, hc⟩
  · obtain ⟨r, hr, rfl, _⟩ := mem_candidates hc
    refine ⟨current_of_visited hp hr, rfl, ?_⟩
    unfold oldest at h
    dsimp only at h
    rw [if_neg fun he => by rw [he.1] at hc; cases hc] at h
    have hlt := countP_lt_of_mem_take Removal.lastUse _ h
    rw [hcount] at hlt
    exact hlt
  · obtain ⟨r, hr, rfl⟩ := mem_map.mp hc
    refine ⟨current_of_visited hp (mem_filter.mp hr).1, rfl, ?_⟩
    have h0 := hcount (p.heap r).lastUse
    rw [hnil, countP_nil] at h0
    show p.records.countP (fun k => !(p.heap k).held && decide ((p.heap k).lastUse < (p.heap r).lastUse)) < p.room
    rw [← h0]
    exact p.room_pos

end

/-- What a save under way does about the records it removes. -/
structure Leaving (plan : PoolPlan) (p : Pool) : Prop where
  current : ∀ c ∈ plan.removals, p.current c.record = true
  deleted : ∀ c ∈ plan.removals, p.net.address (p.heap c.record).offset ∈ plan.deletes
  unwritten : ∀ c ∈ plan.removals, ∀ row ∈ plan.puts, row.1 ≠ p.net.address (p.heap c.record).offset
  family : ∀ row ∈ plan.puts, row.1.family = p.net.family

section
variable {p q : Pool} {plan : PoolPlan}

theorem Leaving.keeps (hl : p.Leaving plan) (h : Keeps p q) : q.Leaving plan where
  current := fun c hc => h.current _ (hl.current c hc)
  deleted := fun c hc => by
    rw [h.net, h.offset _ (hl.current c hc)]
    exact hl.deleted c hc
  unwritten := fun c hc => by
    rw [h.net, h.offset _ (hl.current c hc)]
    exact hl.unwritten c hc
  family := by rw [h.net]; exact hl.family

theorem leaving_snapshot (hp : p.Index) (clean room : Bool) (visit : List Nat) (tick : Nat) :
    (p.snapshot clean room visit tick).1.Leaving (p.snapshot clean room visit tick).2 := by
  have hm := (p.chooseRoom room visit tick).markRemovals_marking clean
  have hsame := p.sameFlags_chooseRoom room visit tick
  generalize hq : ((p.chooseRoom room visit tick).markRemovals clean).1 = q at hm
  generalize hR : ((p.chooseRoom room visit tick).markRemovals clean).2 = removals at hm
  have hcur : ∀ r, q.current r = p.current r := fun r => (hm.current r).trans (hsame.current r)
  have hoff : ∀ r, (q.heap r).offset = (p.heap r).offset := fun r => by rw [hm.record]; exact hsame.offset r
  have hnet : q.net = p.net := by rw [hm.frame]; exact hsame.net
  have hmem : ∀ r, q.current r = true → (q.heap r).offset < q.net.stop := by
    intro r hr
    have h := (hp.offset _ r ((p.current_iff r).mp (hcur r ▸ hr))).2.2.2
    rw [hoff, hnet, ← p.net.usable_add hp.usable]
    exact h
  have hch : ∀ c ∈ removals, q.current c.record = true := fun c hc => (hm.current _).trans (hm.chosen c hc).2.1
  have hfinal : Leaving (q.planned removals (q.savePosition clean).1 (q.savePosition clean).2)
      { q with expired := [], dirty := q.pending.filter fun r => (q.heap r).removing } := by
    refine ⟨hch, fun c hc => mem_append_left _ (mem_map.mpr ⟨c, hc, rfl⟩), ?_, ?_⟩
    · rintro c hc row hrow he
      obtain ⟨r, hr, rfl⟩ := mem_map.mp hrow
      obtain ⟨hpend, hnr⟩ := mem_filter.mp hr
      have hrc := (mem_pending.mp hpend).2.2
      have ho := q.net.address_injective (hmem r hrc) (hmem _ (hch c hc)) he
      -- the two records have one offset, and one of them is marked
      rw [current_eq_of_offset hrc (hch c hc) ho, (hm.marked c.record).mpr (.inr ⟨c, hc, rfl⟩)] at hnr
      cases hnr
    · intro row hrow
      obtain ⟨r, _, rfl⟩ := mem_map.mp hrow
      exact q.net.address_family _
  subst hq hR
  exact hfinal

end
end Pool

/-- The step chooses a record of the range to be removed: it is unused for long,
or the range holds more than its limit and it is unused for a while, or the
range is full and it is among the records with a domain that were used longest
ago. -/
def Sys.Chooses (x : Sys) (l : Label) (f : Family) (r : Nat) : Prop :=
  ∃ p, x.store.pool f = some p ∧ p.current r = true ∧
    match l with
    | .sweepScan _ tick =>
      idleTicks ≤ since tick (p.heap r).lastUse ∨
        (p.net.limit < p.size ∧ protectTicks ≤ since tick (p.heap r).lastUse)
    | .saveCollect _ _ => p.full = true ∧ p.olderNamed r < p.room
    | _ => False

/-- The label is not a write of the storage that fails. -/
def Label.succeeds : Label → Bool
  | .saveWrite ok => ok
  | _ => true

/-- The record was chosen in the past, and had this time of use then. -/
def Chosen (past : List (Sys × Label)) (f : Family) (c : Removal) : Prop :=
  ∃ e ∈ past, Sys.Chooses e.1 e.2 f c.record ∧
    ∃ p, e.1.store.pool f = some p ∧ (p.heap c.record).lastUse = c.lastUse

theorem Chosen.later {past : List (Sys × Label)} {f : Family} {c : Removal} (h : Chosen past f c)
    (e : Sys × Label) : Chosen (e :: past) f c := by
  obtain ⟨e', he, hrest⟩ := h
  exact ⟨e', mem_cons_of_mem e he, hrest⟩

/-- Every record on its way out was chosen, and its row is deleted before it goes. -/
structure Sys.Justified (past : List (Sys × Label)) (x : Sys) : Prop where
  indexed : x.store.Indexed
  tidy : x.Tidy
  saved : x.store.saved = true
  found : ∀ found, x.found = some found → ∀ f, ∀ c ∈ found f, Chosen past f c
  expired : ∀ f p, x.store.pool f = some p → ∀ c ∈ p.expired, Chosen past f c
  leaving : ∀ plan, x.phase.taken = some plan → ∀ f,
    Option.Rel (fun p q => p.Leaving q) (x.store.pool f) (plan.pools f)
  chosen : ∀ plan, x.phase.taken = some plan → ∀ f q, plan.pools f = some q →
    ∀ c ∈ q.removals, Chosen past f c
  deleted : ∀ plan, x.phase = .written plan true → ∀ f p q, x.store.pool f = some p →
    plan.pools f = some q → ∀ c ∈ q.removals,
    x.disk.table.lookup (p.net.address (p.heap c.record).offset) = none
  succeeded : ∀ plan, x.phase ≠ .written plan false

theorem Opened.justified {cfg : Config} {x : Sys} (h : Opened cfg x) : x.Justified [] := by
  have hi := h.indexed
  have ht := Started.tidy (.inr h)
  have hs := h.marks.saved
  obtain ⟨d, generation, rows, m, clean, rfl⟩ := h
  have hr := rows_foldl cfg generation rows
  refine ⟨hi, ht, hs, nofun, ?_, nofun, nofun, nofun, nofun⟩
  intro f p hp c hc
  simp only [load, mapPools] at hp
  obtain ⟨q, hq, rfl⟩ := map_eq_some_iff.mp hp
  rw [((hr.plain f q hq).reload ((cfg.casing.lower_eq_empty "").mpr rfl) _ clean).expired] at hc
  cases hc

namespace Pool

theorem complete_expired (p : Pool) (plan : PoolPlan) : (p.complete plan).expired = p.expired := by
  have h : (plan.removals.foldl finishRemoval { plan.written.foldl settle p with forgotten := [] }).expired =
      p.expired :=
    foldl_keep (f := finishRemoval) (fun q : Pool => q.expired = p.expired)
      (fun q c _ hq => by rw [(q.finished c).frame]; exact hq) (by rw [foldl_settle])
  rw [← h]
  unfold complete openReserve
  dsimp only
  split <;> rfl

theorem resave_lastUse (p : Pool) (r : Nat) : (p.resave.heap r).lastUse = (p.heap r).lastUse := by
  simp only [resave]
  split <;> rfl

theorem olderNamed_resave (p : Pool) (r : Nat) : p.resave.olderNamed r = p.olderNamed r := by
  simp only [olderNamed, p.resave_lastUse, p.sameIndex_resave.held]
  rfl

end Pool

namespace Sys

variable {x : Sys} {past : List (Sys × Label)}

variable {generation : Nat} {f : Family} {r : Request}

section
variable (hx : x.Justified past)
include hx

variable {q : Pool} {visit : Family → List Nat} {tick : Nat} {c : Removal} {plan : Plan} {l : Label}

/-- The ranges a save looks at, after the generation was renewed. -/
theorem Justified.renewed (ht : x.phase.taken = none) (hq : (x.store.renew generation).pool f = some q) :
    ∃ p, x.store.pool f = some p ∧ Pool.SameIndex p q ∧ q.Index ∧ q.expired = p.expired ∧
      (∀ r, (q.heap r).removing = false) ∧ (∀ r, (q.heap r).lastUse = (p.heap r).lastUse) ∧
      ∀ r, q.olderNamed r = p.olderNamed r := by
  have hun := (hx.tidy.renewed ht hq).unmarked
  obtain ⟨p, hp, ⟨_, rfl⟩ | ⟨_, rfl⟩⟩ := renew_pool hq
  · exact ⟨q, hp, .refl q, (hx.indexed f q hp).1, rfl, hun, fun _ => rfl, fun _ => rfl⟩
  · have hs := p.sameIndex_resave
    exact ⟨p, hp, hs, hs.index (hx.indexed f p hp).1, rfl, hun, p.resave_lastUse, p.olderNamed_resave⟩

/-- What a save removes was chosen before, or to make room now. -/
theorem Justified.snapshot (hph : x.phase = .started r generation) (hv : x.visits visit = true)
    (hq : (x.store.renew generation).pool f = some q)
    (hc : c ∈ (q.snapshot r.clean (r.roomOf f) (visit f) tick).2.removals) :
    Chosen ((x, .saveCollect visit tick) :: past) f c := by
  obtain ⟨p, hp, hs, hpl, hexp, hun, hlast, hold⟩ := hx.renewed (by rw [hph]; rfl) hq
  have hm := (q.chooseRoom (r.roomOf f) (visit f) tick).markRemovals_marking r.clean
  have hce := (hm.chosen c hc).1
  unfold Pool.chooseRoom at hce
  split at hce
  next hroom =>
    rw [and_eq_true] at hroom
    rcases mem_append.mp hce with hce | hce
    · rw [hexp] at hce
      exact (hx.expired f p hp c hce).later _
    have hperm : (visit f).Perm q.byOffset.keys := by
      rw [hs.byOffset]
      exact visits_perm hv hp
    obtain ⟨hcur, hl, hrank⟩ := Pool.mem_oldest_room hpl hperm hun hce
    have hsize : q.size = p.size := by rw [Pool.size, Pool.size, hs.byOffset]
    have hfull : p.full = true := by
      have := hroom.2
      rwa [Pool.full, hs.net, hsize] at this
    refine ⟨(x, .saveCollect visit tick), mem_cons_self,
      ⟨p, hp, (hs.current _).symm.trans hcur, hfull, ?_⟩, p, hp, (hlast _).symm.trans hl⟩
    rwa [hold, Pool.room, hsize] at hrank
  · rw [hexp] at hce
    exact (hx.expired f p hp c hce).later _

/-- The rows of the removed records are gone once the changes are written. -/
theorem Justified.write (hph : x.phase = .collected plan) (m : Metadata) (clean : Bool) {p : Pool} {q : PoolPlan}
    (hp : x.store.pool f = some p) (hq : plan.pools f = some q) (hc : c ∈ q.removals) :
    (x.disk.saveChanges plan.puts plan.deletes m clean).table.lookup
      (p.net.address (p.heap c.record).offset) = none := by
  have ht : x.phase.taken = some plan := by rw [hph]; rfl
  obtain ⟨q', hq', hl⟩ := rel_some (hx.leaving plan ht f) hp
  rw [hq] at hq'
  cases hq'
  have hne : ∀ row ∈ plan.puts, row.1 ≠ p.net.address (p.heap c.record).offset := by
    intro row hrow he
    obtain ⟨g, t, ht', hrow⟩ := Plan.mem_puts.mp hrow
    obtain ⟨p', hp', hl'⟩ := rel_some_right (hx.leaving plan ht g) ht'
    have hfam : g = f := by
      have h := hl'.family row hrow
      rw [he, p.net.address_family, (hx.indexed f p hp).2, (hx.indexed g p' hp').2] at h
      exact h.symm
    subst hfam
    rw [hq] at ht'
    cases ht'
    exact hl.unwritten c hc row hrow he
  rw [Disk.saveChanges_table, Table.lookup_foldl_insert_other hne, Table.lookup_foldl_erase,
    if_pos (Plan.mem_deletes.mpr ⟨f, q, hq, hl.deleted c hc⟩)]

theorem Justified.query {s : Store} (hm : x.Move l { x with store := s }) (hq : x.store.Queried l.named (x.uses l) s) :
    Justified ((x, l) :: past) { x with store := s } := by
  have hkeep : ∀ f q, s.pool f = some q → ∃ p, x.store.pool f = some p ∧ p.Keeps q := by
    intro f q hp
    obtain ⟨p, hp', hpq⟩ := hq.pool_some hp
    exact ⟨p, hp', hpq.keeps (hx.indexed f p hp').1⟩
  refine ⟨hm.indexed hx.indexed, hm.tidy hx.tidy, hq.saved.trans hx.saved,
    fun found hf g c hc => (hx.found found hf g c hc).later _, fun f q hp c hc => ?_, fun plan ht f => ?_,
    fun plan ht f q hp c hc => (hx.chosen plan ht f q hp c hc).later _, fun plan hph f q pp hp hpp c hc => ?_,
    hx.succeeded⟩
  · obtain ⟨p, hp', hk⟩ := hkeep f q hp
    rw [hk.expired] at hc
    exact (hx.expired f p hp' c hc).later _
  · exact rel_move (hq.pool f) (hx.leaving plan ht f) fun p q pp hp hpq hl =>
      hl.keeps (hpq.keeps (hx.indexed f p hp).1)
  · obtain ⟨p, hp', hk⟩ := hkeep f q hp
    have ht : x.phase.taken = some plan := by
      rw [show x.phase = .written plan true from hph]
      rfl
    obtain ⟨pp', hpp', hl⟩ := rel_some (hx.leaving plan ht f) hp'
    rw [hpp] at hpp'
    cases hpp'
    rw [hk.net, hk.offset _ (hl.current c hc)]
    exact hx.deleted plan hph f p pp hp' hpp c hc

theorem Justified.sweep {found : Family → List Removal} (hf : x.found = some found) :
    Justified ((x, .sweepApply) :: past) { x with store := x.store.expire found, found := none } := by
  have hm := Sys.Move.sweep found hf
  refine ⟨hm.indexed hx.indexed, hm.tidy hx.tidy, hx.saved, nofun, fun f q hp c hc => ?_, fun plan ht f => ?_,
    fun plan ht f q hp c hc => (hx.chosen plan ht f q hp c hc).later _, fun plan hph f q pp hp => ?_,
    hx.succeeded⟩
  · obtain ⟨p, hp', rfl⟩ := expire_pool hx.saved hp
    rcases mem_append.mp hc with hc | hc
    · exact (hx.expired f p hp' c hc).later _
    · exact (hx.found found hf f c hc).later _
  · have hl := hx.leaving plan ht f
    have hpool : (x.store.expire found).pool f =
        (x.store.pool f).map fun p => { p with expired := p.expired ++ found f } := by
      simp only [expire, mapPools, hx.saved, if_true]
    dsimp only
    rw [hpool]
    generalize x.store.pool f = a, plan.pools f = b at hl
    cases hl with
    | none => exact .none
    | some hl => exact .some ⟨hl.current, hl.deleted, hl.unwritten, hl.family⟩
  · obtain ⟨p, hp', rfl⟩ := expire_pool hx.saved hp
    exact hx.deleted plan hph f p pp hp'

/-- A save that has looked at the ranges and leaves them, apart from renewing. -/
theorem Justified.spare (hph : x.phase = .started r generation) (visit : Family → List Nat) (tick : Nat) :
    Justified ((x, .saveCollect visit tick) :: past)
      { x with store := x.store.renew generation, phase := .idle } := by
  have hm := Sys.Move.spare r generation visit tick hph
  refine ⟨hm.indexed hx.indexed, hm.tidy hx.tidy, (x.store.renew_saved generation).trans hx.saved,
    fun found hf g c hc => (hx.found found hf g c hc).later _, fun f q hq c hc => ?_, nofun, nofun, nofun, nofun⟩
  obtain ⟨p, hp, _, _, he, _⟩ := hx.renewed (by rw [hph]; rfl) hq
  rw [he] at hc
  exact (hx.expired f p hp c hc).later _

theorem Justified.collect (hph : x.phase = .started r generation) (hv : x.visits visit = true)
    (hcl : x.store.closed = true → r.clean = true) :
    Justified ((x, .saveCollect visit tick) :: past)
      { x with
        store := ((x.store.renew generation).plan r visit tick).1
        phase := if ((x.store.renew generation).plan r visit tick).2.empty then .idle
          else .collected ((x.store.renew generation).plan r visit tick).2 } := by
  have hleave : ∀ f, Option.Rel (fun p q => p.Leaving q)
      (((x.store.renew generation).plan r visit tick).1.pool f)
      (((x.store.renew generation).plan r visit tick).2.pools f) := by
    intro f
    simp only [plan, Option.map_map]
    cases hpool : (x.store.renew generation).pool f with
    | none => exact .none
    | some q =>
      obtain ⟨_, _, _, hi, _⟩ := hx.renewed (by rw [hph]; rfl) hpool
      exact .some (Pool.leaving_snapshot hi _ _ _ _)
  have hm := Sys.Move.collect r generation visit tick hph hv hcl
  refine ⟨hm.indexed hx.indexed, hm.tidy hx.tidy, (x.store.renew_saved generation).trans hx.saved,
    fun found hf g c hc => (hx.found found hf g c hc).later _, fun f q hq c hc => ?_,
    fun plan ht f => ?_, fun plan ht f q hq c hc => ?_, fun plan hph' => ?_, fun plan hph' => ?_⟩
  · obtain ⟨p, _, rfl, _⟩ := plan_pool hq
    cases hc
  · dsimp only at ht
    split at ht
    · cases ht
    · cases ht
      exact hleave f
  · dsimp only at ht
    split at ht
    · cases ht
    cases ht
    obtain ⟨p, hp, _⟩ := rel_some_right (hleave f) hq
    obtain ⟨p', hp', _, hpp⟩ := plan_pool hp
    rw [hq] at hpp
    cases hpp
    exact hx.snapshot hph hv hp' hc
  all_goals
    dsimp only at hph'
    split at hph' <;> cases hph'

theorem Justified.complete (hph : x.phase = .written plan true) :
    Justified ((x, .saveComplete) :: past) { x with store := x.store.complete plan, phase := .idle } := by
  have hm := Sys.Move.complete plan hph
  refine ⟨hm.indexed hx.indexed, hm.tidy hx.tidy, hx.saved, fun found hf g c hc => (hx.found found hf g c hc).later _,
    fun f q hq c hc => ?_, nofun, nofun, nofun, nofun⟩
  obtain ⟨p, hp, rfl⟩ := complete_pool hq
  obtain ⟨pp, hpp, _⟩ := rel_some (hx.leaving plan (by rw [hph]; rfl) f) hp
  rw [hpp, Option.elim_some, Pool.complete_expired] at hc
  exact (hx.expired f p hp c hc).later _

theorem Justified.move {x' : Sys} (hm : x.Move l x') (hok : l.succeeds = true) :
    x'.Justified ((x, l) :: past) := by
  have hi := hm.indexed hx.indexed
  have ht := hm.tidy hx.tidy
  have hfound := fun found hf g c hc => (hx.found found hf g c hc).later (x, l)
  have hexp := fun f p hp c hc => (hx.expired f p hp c hc).later (x, l)
  have hchosen := fun plan ht f q hq c hc => (hx.chosen plan ht f q hq c hc).later (x, l)
  cases hm with
  | query l s hl hq => exact hx.query (.query l s hl hq) hq
  | scan visit tick =>
    refine ⟨hi, ht, hx.saved, ?_, hexp, hx.leaving, hchosen, hx.deleted, hx.succeeded⟩
    rintro _ ⟨⟩ f c hc
    unfold findExpired at hc
    split at hc
    · cases hc
    next p hp =>
      obtain ⟨hcur, hl, hwhy⟩ := Pool.mem_findExpired (hx.indexed f p hp).1 hc
      rw [← hl] at hwhy
      exact ⟨_, mem_cons_self, ⟨p, hp, hcur, hwhy⟩, p, hp, hl⟩
  | sweep found hf => exact hx.sweep hf
  | makeRoom _ _ _ hs | resetUnsaved _ _ hs => rw [hx.saved] at hs; cases hs
  | start | refuse | resetStorage => exact ⟨hi, ht, hx.saved, hfound, hexp, nofun, nofun, nofun, nofun⟩
  | spare r generation visit tick hp => exact hx.spare hp visit tick
  | collect r generation visit tick hp hv hcl => exact hx.collect hp hv hcl
  | fail plan _ => cases hok
  | write plan hp =>
    refine ⟨hi, ht, hx.saved, hfound, hexp, fun plan' ht => hx.leaving plan' (by rw [hp]; exact ht),
      fun plan' ht => hchosen plan' (by rw [hp]; exact ht), ?_, nofun⟩
    rintro _ ⟨⟩ f p q hpool hq c hc
    exact hx.write hp _ _ hpool hq hc
  | complete plan hp => exact hx.complete hp
  | abandon plan hp => exact absurd hp (hx.succeeded plan)
  | resetFailed | close => exact ⟨hi, ht, hx.saved, hfound, hexp, hx.leaving, hchosen, hx.deleted, hx.succeeded⟩
  | resetMemory hp =>
    refine ⟨hi, ht, hx.saved, hfound, fun f q hq c hc => ?_, nofun, nofun, nofun, nofun⟩
    obtain ⟨p, _, rfl⟩ := map_eq_some_iff.mp hq
    cases hc
  | recreate =>
    exact ⟨hi, ht, hx.saved, hfound, hexp, hx.leaving, hchosen, fun _ _ _ _ _ _ _ _ _ => rfl, hx.succeeded⟩

end

end Sys

/-- In every run without a failed write, a record with a domain that goes other
than by `Reset` had no row left, and it was chosen at a step of the past and not
used since. -/
theorem removal_discipline (cfg : Config) (past : List (Sys × Label)) (x x' : Sys) (l : Label)
    (hrun : (machine (Opened cfg)).Run past x)
    (hal : System.Along (fun _ l => l.succeeds = true) past)
    (hstep : x.step l = some x') (hl : l ≠ .resetMemory) (f : Family) (p q : Pool) (r : Nat)
    (hp : x.store.pool f = some p) (hq : x'.store.pool f = some q) (hr : p.current r = true)
    (hd : (p.heap r).held = false) (hgone : q.current r = false) :
    x.disk.table.lookup (p.net.address (p.heap r).offset) = none ∧
      Chosen past f ⟨r, (p.heap r).lastUse⟩ := by
  have hx : x.Justified past := System.Run.invariant_past (fun _ h => Opened.justified h)
    (fun _ _ _ _ _ hx hok hs => hx.move (Sys.step_move hs) hok) hrun hal
  -- every other step leaves the record where it is
  have hstay : q.current r ≠ true := by rw [hgone]; exact false_ne_true
  have hsame : q = p → False := fun h => hstay (h ▸ hr)
  cases Sys.step_move hstep with
  | query l s _ hqu =>
    obtain ⟨p', hp', hpq⟩ := hqu.pool_some hq
    rw [hp] at hp'
    cases hp'
    exact absurd ((hpq.keeps (hx.indexed f p hp).1).current r hr) hstay
  | sweep found _ =>
    obtain ⟨p', hp', rfl⟩ := expire_pool hx.saved hq
    rw [hp] at hp'
    cases hp'
    exact absurd hr hstay
  | makeRoom _ _ _ hs | resetUnsaved _ _ hs => rw [hx.saved] at hs; cases hs
  | spare r' generation visit tick hph =>
    obtain ⟨p', hp', hs, _⟩ := hx.renewed (by rw [hph]; rfl) hq
    rw [hp] at hp'
    cases hp'
    exact absurd ((hs.current r).trans hr) hstay
  | collect r' generation visit tick hph =>
    obtain ⟨t, ht, rfl, _⟩ := plan_pool hq
    obtain ⟨p', hp', hs, _⟩ := hx.renewed (by rw [hph]; rfl) ht
    rw [hp] at hp'
    cases hp'
    exact absurd (((t.sameIndex_snapshot _ _ _ _).current r).trans ((hs.current r).trans hr)) hstay
  | complete plan hph =>
    obtain ⟨p', hp', rfl⟩ := complete_pool hq
    rw [hp] at hp'
    cases hp'
    have ht : x.phase.taken = some plan := by rw [hph]; rfl
    obtain ⟨pp, hpp, _⟩ := rel_some (hx.leaving plan ht f) hp
    rw [hpp] at hgone
    obtain ⟨c, hmem, rfl, hlast⟩ := Pool.complete_gone hr hgone
    refine ⟨hx.deleted plan hph f p pp hp hpp c hmem, ?_⟩
    rw [hlast]
    exact hx.chosen plan ht f pp hpp c hmem
  | abandon plan hph => exact absurd hph (hx.succeeded plan)
  | resetMemory => exact absurd rfl hl
  | _ => exact (hsame (some.inj (hq.symm.trans hp))).elim

theorem slash29_raw_lt : 3323068416 < 2 ^ Family.inet4.bitLen := by decide

/-- A range of five addresses, `198.18.0.2` to `198.18.0.6`. -/
def slash29 : Config where
  casing := .ascii
  range := fun f => if f = .inet4 then some ⟨.inet4, 3323068416, 29, slash29_raw_lt, by decide⟩ else none
  family := by
    intro f n h
    cases f <;> cases h
    rfl
  usable := by
    intro f n h
    cases f <;> cases h
    decide

/-- A file left by a crash right after the first address was reserved. -/
def crashedFile : Disk where
  table := ∅
  cursor := some ⟨slash29.range, fun f => (slash29.range f).map fun n => n.address firstOffset⟩
  clean := none
  generation := 0

/-- The first address is held back, the other four are given out, and a save
makes room for a fifth domain; its completion is left out. -/
def makesRoom : List Label :=
  [.saveStart {}, .saveCollect (fun _ => [2]) 864002, .saveWrite true, .saveComplete,
    .allocate .inet4 "a" 864003,
    .saveStart {}, .saveCollect (fun _ => [2, 3]) 864003, .saveWrite true, .saveComplete,
    .allocate .inet4 "b" 864004,
    .saveStart {}, .saveCollect (fun _ => [2, 3, 4]) 864004, .saveWrite true, .saveComplete,
    .allocate .inet4 "c" 864005,
    .saveStart {}, .saveCollect (fun _ => [2, 3, 4, 5]) 864005, .saveWrite true, .saveComplete,
    .allocate .inet4 "d" 864006,
    .saveStart { room := some .inet4 }, .saveCollect (fun _ => [2, 3, 4, 5, 6]) 864007, .saveWrite true]

/-- The state before `a` goes. -/
def madeRoom : Option Sys := (machine (Opened slash29)).exec makesRoom (.loaded slash29 crashedFile)

theorem madeRoom_run {x : Sys} (h : madeRoom = some x) :
    (machine (Opened slash29)).Run
      ((machine (Opened slash29)).trace makesRoom (.loaded slash29 crashedFile) []) x :=
  System.run_exec (.start _ ⟨_, _, _, _, _, rfl⟩) h

/-- Completing the save takes `a` out of the memory. -/
def losesA (x : Sys) : Bool :=
  (x.step .saveComplete).any fun x' => (x.store.pool .inet4).any fun p => (x'.store.pool .inet4).any fun q =>
    p.current 1 && (p.heap 1).domain == "a" && !q.current 1

theorem madeRoom_losesA : ∃ x, madeRoom = some x ∧ ∃ x', x.step .saveComplete = some x' ∧
    ∃ p, x.store.pool .inet4 = some p ∧ ∃ q, x'.store.pool .inet4 = some q ∧
      p.current 1 = true ∧ (p.heap 1).domain = "a" ∧ q.current 1 = false := by
  have h : madeRoom.any losesA = true := by decide +kernel
  simp only [losesA, Option.any_eq_true, Bool.and_eq_true, Bool.not_eq_true', beq_iff_eq] at h
  obtain ⟨x, hx, x', hx', p, hp, q, hq, ⟨hc, hd⟩, hg⟩ := h
  exact ⟨x, hx, x', hx', p, hp, q, hq, hc, hd, hg⟩

theorem removal_discipline_slash29 :
    ∃ past x p, (machine (Opened slash29)).Run past x ∧ x.store.pool .inet4 = some p ∧
      (p.heap 1).domain = "a" ∧ x.disk.table.lookup (p.net.address (p.heap 1).offset) = none ∧
      Chosen past .inet4 ⟨1, (p.heap 1).lastUse⟩ := by
  obtain ⟨x, hx, x', hstep, p, hp, q, hq, hc, hd, hg⟩ := madeRoom_losesA
  refine ⟨_, x, p, madeRoom_run hx, hp, hd, ?_⟩
  exact removal_discipline slash29 _ x x' .saveComplete (madeRoom_run hx)
    (System.along_exec (by decide +kernel)) hstep nofun .inet4 p q 1 hp hq hc
    (by simp [Record.held, hd]) hg

/-- How many records, held back or not, were used longer ago. -/
def Pool.older (p : Pool) (r : Nat) : Nat :=
  p.records.countP fun k => decide ((p.heap k).lastUse < (p.heap r).lastUse)

/-- The step chooses the record, if a full range gave up those of all its
records that were used longest ago. -/
def Sys.choosesOfAll (x : Sys) (l : Label) (f : Family) (r : Nat) : Bool :=
  match x.store.pool f with
  | none => false
  | some p => p.current r && match l with
    | .sweepScan _ tick =>
      decide (idleTicks ≤ since tick (p.heap r).lastUse) ||
        (decide (p.net.limit < p.size) && decide (protectTicks ≤ since tick (p.heap r).lastUse))
    | .saveCollect _ _ => p.full && decide (p.older r < p.room)
    | _ => false

/-- A record held back was used longer ago than `a`, and yet `a` goes. -/
theorem held_back_is_passed_over :
    ∃ past x x' p q r, (machine (Opened slash29)).Run past x ∧
      System.Along (fun _ l => l.succeeds = true) past ∧ x.step .saveComplete = some x' ∧
      x.store.pool .inet4 = some p ∧ x'.store.pool .inet4 = some q ∧
      p.current r = true ∧ (p.heap r).held = false ∧ q.current r = false ∧
      ∀ e ∈ past, e.1.choosesOfAll e.2 .inet4 r = false := by
  obtain ⟨x, hx, x', hstep, p, hp, q, hq, hc, hd, hg⟩ := madeRoom_losesA
  have hall : ((machine (Opened slash29)).trace makesRoom (.loaded slash29 crashedFile) []).all
      (fun e => e.1.choosesOfAll e.2 .inet4 1 == false) = true := by decide +kernel
  exact ⟨_, x, x', p, q, 1, madeRoom_run hx, System.along_exec (by decide +kernel),
    hstep, hp, hq, hc, by simp [Record.held, hd], hg,
    fun e he => beq_iff_eq.mp (all_eq_true.mp hall e he)⟩

end SingBox.FakeIP
