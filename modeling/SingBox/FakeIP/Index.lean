import SingBox.Lib.Fold
import SingBox.Lib.Table
import SingBox.FakeIP.Machine

/-!
# The two indexes of a range

`byName` and `byOffset` lead to the same records, but for the empty name: the
empty domain is how a held back address is told apart, and `remove` leaves the
name of a held back record alone. What a save, a sweep or a full range does is
said once: records go, each while the range leads to it.
-/
namespace SingBox.FakeIP

open SingBox.Lib List Function AList

namespace Pool

/-- What makes the indexes consistent. -/
structure Index (p : Pool) : Prop where
  usable : 0 < p.net.usable
  next : Ring.Mem firstOffset p.net.usable p.next
  name : ∀ d r, d ≠ "" → p.byName.lookup d = some r →
    (p.heap r).domain = d ∧ p.byOffset.lookup (p.heap r).offset = some r
  offset : ∀ o r, p.byOffset.lookup o = some r →
    (p.heap r).offset = o ∧ r < p.fresh ∧ Ring.Mem firstOffset p.net.usable o

/-- Nothing the indexes depend on is different. -/
structure SameIndex (p q : Pool) : Prop where
  net : q.net = p.net
  fresh : q.fresh = p.fresh
  next : q.next = p.next
  byName : q.byName = p.byName
  byOffset : q.byOffset = p.byOffset
  domain : ∀ r, (q.heap r).domain = (p.heap r).domain
  offset : ∀ r, (q.heap r).offset = (p.heap r).offset

theorem SameIndex.refl (p : Pool) : SameIndex p p := ⟨rfl, rfl, rfl, rfl, rfl, fun _ => rfl, fun _ => rfl⟩

variable {p q : Pool} {r : Nat}

theorem SameIndex.trans {t : Pool} (h : SameIndex p q) (h' : SameIndex q t) : SameIndex p t where
  net := h'.net.trans h.net
  fresh := h'.fresh.trans h.fresh
  next := h'.next.trans h.next
  byName := h'.byName.trans h.byName
  byOffset := h'.byOffset.trans h.byOffset
  domain := fun r => (h'.domain r).trans (h.domain r)
  offset := fun r => (h'.offset r).trans (h.offset r)

theorem SameIndex.index (h : SameIndex p q) (hi : p.Index) : q.Index where
  usable := by rw [h.net]; exact hi.usable
  next := by rw [h.net, h.next]; exact hi.next
  name := by
    intro d r hd hr
    rw [h.byName] at hr
    rw [h.domain, h.offset, h.byOffset]
    exact hi.name d r hd hr
  offset := by
    intro o r hr
    rw [h.byOffset] at hr
    rw [h.offset, h.fresh, h.net]
    exact hi.offset o r hr

theorem SameIndex.current (h : SameIndex p q) (r : Nat) : q.current r = p.current r := by
  unfold Pool.current
  rw [h.byOffset, h.offset]

theorem SameIndex.held (h : SameIndex p q) (r : Nat) : (q.heap r).held = (p.heap r).held := by
  simp only [Record.held, h.domain]

theorem SameIndex.foldl {α : Type} {g : Pool → α → Pool} (hg : ∀ p a, SameIndex p (g p a)) (l : List α)
    (p : Pool) : SameIndex p (l.foldl g p) :=
  foldl_keep (SameIndex p) (fun q a _ hq => hq.trans (hg q a)) (.refl p)

/-- Changing the flags or the time of use of a record touches no index. -/
theorem sameIndex_update (p : Pool) (r : Nat) (g : Record → Record)
    (hd : ∀ x, (g x).domain = x.domain) (ho : ∀ x, (g x).offset = x.offset) :
    SameIndex p (p.update r g) where
  net := rfl
  fresh := rfl
  next := rfl
  byName := rfl
  byOffset := rfl
  domain := by intro k; rw [update_heap]; split <;> simp [hd]
  offset := by intro k; rw [update_heap]; split <;> simp [ho]

theorem sameIndex_touch (p : Pool) (r stamp : Nat) : SameIndex p (p.touch r stamp) :=
  sameIndex_update p r _ (fun _ => rfl) (fun _ => rfl)

theorem sameIndex_settle (p : Pool) (r : Nat) : SameIndex p (p.settle r) :=
  sameIndex_update p r _ (fun _ => rfl) (fun _ => rfl)

theorem sameIndex_unmark (p : Pool) (c : Removal) : SameIndex p (p.unmark c) :=
  sameIndex_update p c.record _ (fun _ => rfl) (fun _ => rfl)

theorem sameIndex_resave (p : Pool) : SameIndex p p.resave where
  net := rfl
  fresh := rfl
  next := rfl
  byName := rfl
  byOffset := rfl
  domain := by intro r; simp only [resave]; split <;> rfl
  offset := by intro r; simp only [resave]; split <;> rfl

theorem sameIndex_markRemoval (clean : Bool) (acc : Pool × List Removal) (c : Removal) :
    SameIndex acc.1 (markRemoval clean acc c).1 := by
  unfold markRemoval
  dsimp only
  split
  · exact .refl _
  · exact sameIndex_update acc.1 c.record (fun x => { x with removing := true }) (fun _ => rfl) (fun _ => rfl)

theorem sameIndex_markRemovals (clean : Bool) (p : Pool) : SameIndex p (p.markRemovals clean).1 :=
  foldl_keep (f := markRemoval clean) (fun acc : Pool × List Removal => SameIndex p acc.1)
    (fun acc c _ h => h.trans (sameIndex_markRemoval clean acc c)) (.refl p)

theorem sameIndex_chooseRoom (p : Pool) (room : Bool) (visit : List Nat) (tick : Nat) :
    SameIndex p (p.chooseRoom room visit tick) := by
  unfold chooseRoom
  split <;> exact ⟨rfl, rfl, rfl, rfl, rfl, fun _ => rfl, fun _ => rfl⟩

theorem sameIndex_snapshot (p : Pool) (clean room : Bool) (visit : List Nat) (tick : Nat) :
    SameIndex p (p.snapshot clean room visit tick).1 := by
  have h := (sameIndex_chooseRoom p room visit tick).trans
    (sameIndex_markRemovals clean (p.chooseRoom room visit tick))
  exact ⟨h.net, h.fresh, h.next, h.byName, h.byOffset, h.domain, h.offset⟩

theorem sameIndex_openReserve (p : Pool) (reserve : Option Nat) (last : Nat) :
    SameIndex p (p.openReserve reserve last) := by
  cases reserve <;> exact ⟨rfl, rfl, rfl, rfl, rfl, fun _ => rfl, fun _ => rfl⟩

theorem current_iff (p : Pool) (r : Nat) :
    p.current r = true ↔ p.byOffset.lookup (p.heap r).offset = some r := by
  simp [current]

theorem remove_lookup (o k : Nat) :
    (p.remove r).byOffset.lookup o = some k ↔ o ≠ (p.heap r).offset ∧ p.byOffset.lookup o = some k := by
  show (p.byOffset.erase (p.heap r).offset).lookup o = some k ↔ _
  by_cases ho : o = (p.heap r).offset
  · rw [ho, lookup_erase]
    simp
  · rw [lookup_erase_ne ho]
    simp [ho]

theorem remove_name {k : Nat} {d : String} (h : (p.remove r).byName.lookup d = some k) :
    p.byName.lookup d = some k ∧ ((p.heap r).held = false → p.byName.lookup (p.heap r).domain = some r →
      d ≠ (p.heap r).domain) := by
  simp only [remove] at h
  split at h
  · by_cases hd : d = (p.heap r).domain
    · rw [hd, lookup_erase] at h
      cases h
    · rw [lookup_erase_ne hd] at h
      exact ⟨h, fun _ _ => hd⟩
  next hc =>
    refine ⟨h, fun hh hn => absurd ?_ hc⟩
    simp [hh, hn]

/-- Taking out a record the range leads to keeps the other entries. -/
theorem Index.remove (hi : p.Index) (hr : p.current r = true) : (p.remove r).Index := by
  rw [current_iff] at hr
  refine ⟨hi.usable, hi.next, fun d k hd hk => ?_, fun o k hk => hi.offset o k ((remove_lookup o k).mp hk).2⟩
  obtain ⟨hn, hother⟩ := remove_name hk
  obtain ⟨hdom, ho⟩ := hi.name d k hd hn
  refine ⟨hdom, (remove_lookup _ k).mpr ⟨fun he => ?_, ho⟩⟩
  -- the name of a record with a domain is taken out with it
  have hk' : some k = some r := (he ▸ ho.symm).trans hr
  cases hk'
  have hheld : (p.heap r).held = false := by
    rw [Record.held, hdom]
    simpa using hd
  exact hother hheld (hdom ▸ hn) hdom.symm

/-- `q` is `p` without some of its records, each taken out while the range led to it. -/
inductive Thins (p : Pool) : Pool → Prop
  | same {q : Pool} : SameIndex p q → Thins p q
  | remove {q t : Pool} {r : Nat} : Thins p q → (p.Index → q.current r = true) → SameIndex (q.remove r) t →
      Thins p t

section
variable {p q t : Pool}

theorem Thins.refl (p : Pool) : Thins p p := .same (.refl p)

theorem Thins.andThen (h : Thins p q) (h' : SameIndex q t) : Thins p t := by
  cases h with
  | same h => exact .same (h.trans h')
  | remove h hc hs => exact .remove h hc (hs.trans h')

variable {r : Nat}

section
variable (h : Thins p q)
include h

theorem Thins.take (hr : q.current r = true) : Thins p (q.remove r) :=
  .remove h (fun _ => hr) (.refl _)

theorem Thins.index (hi : p.Index) : q.Index := by
  induction h with
  | same h => exact h.index hi
  | remove _ hc hs ih => exact hs.index (ih.remove (hc hi))

theorem Thins.net : q.net = p.net := by
  induction h with
  | same h => exact h.net
  | remove _ _ hs ih => exact hs.net.trans ih

theorem Thins.fresh : q.fresh = p.fresh := by
  induction h with
  | same h => exact h.fresh
  | remove _ _ hs ih => exact hs.fresh.trans ih

theorem Thins.domain (r : Nat) : (q.heap r).domain = (p.heap r).domain := by
  induction h with
  | same h => exact h.domain r
  | remove _ _ hs ih => exact (hs.domain r).trans ih

theorem Thins.name {d : String} (hr : q.byName.lookup d = some r) :
    p.byName.lookup d = some r := by
  induction h with
  | same h => exact h.byName ▸ hr
  | remove _ _ hs ih => exact ih (remove_name (hs.byName ▸ hr)).1

theorem Thins.finishRemoval (c : Removal) : Thins p (q.finishRemoval c) := by
  have hu := h.andThen (sameIndex_unmark q c)
  unfold Pool.finishRemoval
  dsimp only
  split
  · exact hu
  next hc =>
    split
    · split
      · exact hu
      · have h := sameIndex_update (q.unmark c) c.record (fun x => { x with dirty := true })
          (fun _ => rfl) (fun _ => rfl)
        exact hu.andThen ⟨h.net, h.fresh, h.next, h.byName, h.byOffset, h.domain, h.offset⟩
    · exact hu.take (by simpa using hc)

theorem Thins.forget (c : Removal) : Thins p (q.forget c) := by
  unfold Pool.forget
  split
  · exact h
  next hc =>
    have hr : q.current c.record = true := by
      simp only [Bool.or_eq_true, not_or, Bool.not_eq_true, Bool.not_eq_false'] at hc
      exact hc.1
    dsimp only
    split
    · exact h.take hr
    · exact (h.take hr).andThen ⟨rfl, rfl, rfl, rfl, rfl, fun _ => rfl, fun _ => rfl⟩

theorem Thins.release (c : Removal) : Thins p (Store.release q c) := by
  unfold Store.release
  split
  next hc =>
    rw [Bool.and_eq_true] at hc
    exact h.take hc.1
  · exact h

end

theorem thins_complete (p : Pool) (plan : PoolPlan) : Thins p (p.complete plan) := by
  have h : SameIndex p { plan.written.foldl settle p with forgotten := [] } :=
    (SameIndex.foldl sameIndex_settle plan.written p).trans ⟨rfl, rfl, rfl, rfl, rfl, fun _ => rfl, fun _ => rfl⟩
  exact (foldl_keep (Thins p) (fun _ c _ hq => hq.finishRemoval c) (.same h)).andThen (sameIndex_openReserve _ _ _)

theorem thins_abandon (p : Pool) (room : Bool) (plan : PoolPlan) : Thins p (p.abandon room plan) := by
  have h₁ : SameIndex p { p with dirty := p.dirty ++ plan.written } :=
    ⟨rfl, rfl, rfl, rfl, rfl, fun _ => rfl, fun _ => rfl⟩
  have h₂ : Thins p _ := .same (h₁.trans (SameIndex.foldl sameIndex_unmark plan.removals _))
  unfold abandon
  dsimp only
  split
  · exact foldl_keep (Thins p) (fun _ c _ hq => hq.forget c) h₂
  · exact h₂

end

variable {p : Pool} {r : Nat} {visit : List Nat}

theorem Index.advance (hi : p.Index) (saved : Bool) : (p.advance saved).Index :=
  ⟨hi.usable, Ring.after_mem hi.usable, hi.name, hi.offset⟩

theorem heap_lt (hi : p.Index) {o : Nat} (h : p.byOffset.lookup o = some r) : r ≠ p.fresh :=
  Nat.ne_of_lt (hi.offset o r h).2.1

theorem give_heap_fresh (p : Pool) (x : Record) : (p.give x).heap p.fresh = x := by simp [give]

theorem give_lookup (p : Pool) (x : Record) : (p.give x).byOffset.lookup x.offset = some p.fresh :=
  lookup_insert p.byOffset

theorem give_heap (hi : p.Index) (x : Record) {o : Nat} (h : p.byOffset.lookup o = some r) :
    (p.give x).heap r = p.heap r :=
  update_of_ne (heap_lt hi h) _ _

/-- An offset leads to the new record, or to where it led. -/
theorem give_lookup_eq_some {x : Record} {o : Nat} : (p.give x).byOffset.lookup o = some r ↔
    o = x.offset ∧ p.fresh = r ∨ o ≠ x.offset ∧ p.byOffset.lookup o = some r :=
  Table.lookup_insert_eq_some

/-- The new record is where it belongs, and the others are where they were. -/
theorem Index.give_offset (hi : p.Index) {x : Record} (hm : Ring.Mem firstOffset p.net.usable x.offset) (o r : Nat)
    (hr : (p.give x).byOffset.lookup o = some r) :
    ((p.give x).heap r).offset = o ∧ r < (p.give x).fresh ∧ Ring.Mem firstOffset p.net.usable o := by
  rcases give_lookup_eq_some.mp hr with ⟨rfl, rfl⟩ | ⟨_, hr⟩
  · rw [give_heap_fresh]
    exact ⟨rfl, Nat.lt_succ_self _, hm⟩
  · obtain ⟨h₁, h₂, h₃⟩ := hi.offset o r hr
    rw [give_heap hi x hr]
    exact ⟨h₁, Nat.lt_succ_of_lt h₂, h₃⟩

theorem Index.give (hi : p.Index) (x : Record) (hf : p.byOffset.lookup x.offset = none)
    (hm : Ring.Mem firstOffset p.net.usable x.offset) : (p.give x).Index := by
  refine ⟨hi.usable, hi.next, fun d r hdr hr => ?_, hi.give_offset hm⟩
  obtain ⟨hd, ho⟩ := hi.name d r hdr hr
  have hne : (p.heap r).offset ≠ x.offset := by
    intro he
    rw [he, hf] at ho
    cases ho
  rw [give_heap hi x ho]
  exact ⟨hd, give_lookup_eq_some.mpr (.inr ⟨hne, ho⟩)⟩

/-- A name may be led to any record of the range that carries it. -/
theorem Index.setName (hi : p.Index) (hr : p.current r = true) :
    Index { p with byName := p.byName.insert (p.heap r).domain r } := by
  refine ⟨hi.usable, hi.next, fun d k hd hk => ?_, hi.offset⟩
  by_cases he : d = (p.heap r).domain
  · subst he
    have hk' := hk
    rw [lookup_insert] at hk'
    cases hk'
    exact ⟨rfl, (current_iff p r).mp hr⟩
  · exact hi.name d k hd (by rwa [lookup_insert_ne he] at hk)

theorem Index.assign (hi : p.Index) (saved : Bool) (domain : String) {offset : Nat} (stamp : Nat)
    (hf : p.byOffset.lookup offset = none) (hm : Ring.Mem firstOffset p.net.usable offset) :
    (p.assign saved domain offset stamp).Index := by
  have hg := hi.give ⟨domain, offset, stamp, saved, false⟩ hf hm
  have hx := give_heap_fresh p ⟨domain, offset, stamp, saved, false⟩
  have hl := give_lookup p ⟨domain, offset, stamp, saved, false⟩
  have hs := hg.setName (r := p.fresh) (by rw [current_iff, hx]; exact hl)
  rw [hx] at hs
  exact ⟨hs.usable, hs.next, hs.name, hs.offset⟩

theorem current_of_visited (hi : p.Index) (h : r ∈ p.visited visit) : p.current r = true := by
  obtain ⟨o, _, ho⟩ := mem_filterMap.mp h
  rw [current_iff, (hi.offset o r ho).1]
  exact ho

theorem visited_nodup (hi : p.Index) (hv : visit.Nodup) :
    (p.visited visit).Nodup := by
  refine List.Nodup.filterMap ?_ hv
  intro o o' r hr hr'
  rw [← (hi.offset o r hr).1, ← (hi.offset o' r hr').1]

/-- What `oldest` returns was visited, and no record twice. -/
theorem oldest_records (p : Pool) (visit : List Nat) (count protect tick : Nat) :
    ∃ l : List Nat, (p.oldest visit count protect tick).Subperm (l.map p.removal) ∧
      l.Sublist (p.visited visit) := by
  unfold oldest
  dsimp only
  split
  all_goals exact ⟨_, List.Subperm.trans (take_sublist _ _).subperm (perm_insertionSort _ _).subperm, filter_sublist⟩

theorem Index.oldest_current (hi : p.Index) {count protect tick : Nat} {c : Removal}
    (h : c ∈ p.oldest visit count protect tick) : p.current c.record = true := by
  obtain ⟨l, hl, hs⟩ := oldest_records p visit count protect tick
  obtain ⟨r, hr, rfl⟩ := mem_map.mp (hl.subset h)
  exact current_of_visited hi (hs.subset hr)

theorem Index.oldest_nodup (hi : p.Index) (hv : visit.Nodup) (count protect tick : Nat) :
    ((p.oldest visit count protect tick).map Removal.record).Nodup := by
  obtain ⟨l, hl, hs⟩ := oldest_records p visit count protect tick
  have hm : (l.map p.removal).map Removal.record = l := by
    rw [map_map]
    exact map_id l
  have hnd : l.Nodup := (visited_nodup hi hv).sublist hs
  obtain ⟨l', hp, hsub⟩ := hl
  refine (hp.map Removal.record).nodup_iff.mp ?_
  refine List.Nodup.sublist (hsub.map Removal.record) ?_
  rw [hm]
  exact hnd

theorem current_remove {k : Nat} (hr : p.current r = true) (hk : p.current k = true) (hne : k ≠ r) :
    (p.remove r).current k = true := by
  rw [current_iff] at hr hk ⊢
  have ho : (p.heap k).offset ≠ (p.heap r).offset := by
    intro he
    rw [he, hr] at hk
    exact hne (Option.some.inj hk).symm
  show (p.byOffset.erase (p.heap r).offset).lookup (p.heap k).offset = some k
  rw [lookup_erase_ne ho]
  exact hk

/-- The records a full range gives up are all there and all different. -/
theorem thins_oldest (p : Pool) (hv : visit.Nodup) (tick : Nat) :
    Thins p ((p.oldest visit p.room 0 tick).foldl (fun p c => p.remove c.record) p) := by
  refine (foldl_left (f := fun (p : Pool) (c : Removal) => p.remove c.record)
    (fun q rest => p.Thins q ∧ (p.Index → (rest.map Removal.record).Nodup ∧ ∀ c ∈ rest, q.current c.record = true))
    ?_ _ p ⟨.refl p, fun hi => ⟨hi.oldest_nodup hv _ _ _, fun c hc => hi.oldest_current hc⟩⟩).1
  rintro q c rest ⟨hq, hrest⟩
  refine ⟨.remove hq (fun hi => (hrest hi).2 c mem_cons_self) (.refl _), fun hi => ?_⟩
  obtain ⟨hn, hc⟩ := hrest hi
  simp only [map_cons, nodup_cons] at hn
  refine ⟨hn.2, fun d hd => ?_⟩
  refine current_remove (hc c mem_cons_self) (hc d (mem_cons_of_mem c hd)) ?_
  intro he
  exact hn.1 (he ▸ mem_map_of_mem hd)

theorem Index.new {net : Prefix} (h : 0 < net.usable) : (new net).Index where
  usable := h
  next := ⟨Nat.le_refl _, Nat.lt_add_of_pos_right h⟩
  name := by intro d r _ hr; cases hr
  offset := by intro o r hr; cases hr

/-- A range while the saved rows are read: no name leads anywhere yet. -/
structure Loading (p : Pool) : Prop where
  index : p.Index
  unnamed : p.byName = ∅
  named : ∀ o r, p.byOffset.lookup o = some r → (p.heap r).domain ≠ ""

theorem Loading.give (hl : p.Loading) (x : Record) (hm : Ring.Mem firstOffset p.net.usable x.offset)
    (hd : x.domain ≠ "") : (p.give x).Loading := by
  refine ⟨⟨hl.index.usable, hl.index.next, ?_, hl.index.give_offset hm⟩, hl.unnamed, ?_⟩
  · intro d r _ hr
    have he : (p.give x).byName = ∅ := hl.unnamed
    rw [he] at hr
    cases hr
  · intro o r hr
    rcases give_lookup_eq_some.mp hr with ⟨rfl, rfl⟩ | ⟨_, hr⟩
    · rw [give_heap_fresh]
      exact hd
    · rw [give_heap hl.index x hr]
      exact hl.named o r hr

/-- Giving a record its time of use and its name leaves offsets and domains alone. -/
theorem restoreRecord_frame (next tick : Nat) (p : Pool) (r : Nat) :
    (restoreRecord next tick p r).net = p.net ∧
    (restoreRecord next tick p r).byOffset = p.byOffset ∧
    ∀ k, ((restoreRecord next tick p r).heap k).domain = (p.heap k).domain ∧
      ((restoreRecord next tick p r).heap k).offset = (p.heap k).offset := by
  have ht (stamp : Nat) := sameIndex_touch p r stamp
  unfold restoreRecord
  dsimp only
  split
  on_goal 2 => split
  all_goals exact ⟨rfl, rfl, fun k => ⟨(ht _).domain k, (ht _).offset k⟩⟩

theorem Index.restoreRecord (hi : p.Index) (next tick : Nat) (hr : p.current r = true) :
    (restoreRecord next tick p r).Index := by
  have ht := sameIndex_touch p r (tick * 2 ^ 32 + (p.net.usable - 1 - p.age next (p.heap r).offset))
  have hn := (ht.index hi).setName (r := r) (by rw [ht.current]; exact hr)
  rw [ht.domain] at hn
  unfold Pool.restoreRecord
  dsimp only
  split
  · exact hn
  · split
    · exact hn
    · exact ht.index hi

theorem position_mem (hi : p.Index) (saved : Option Addr) :
    Ring.Mem firstOffset p.net.usable (p.position saved).1 := by
  unfold position
  split
  · exact Ring.after_mem hi.usable
  · split
    · exact ⟨Nat.le_refl _, Nat.lt_add_of_pos_right hi.usable⟩
    · exact Ring.after_mem hi.usable

theorem restoreRecord_byName (next tick : Nat) (p : Pool) (r : Nat) :
    (restoreRecord next tick p r).byName = p.byName ∨
      (restoreRecord next tick p r).byName = p.byName.insert (p.heap r).domain r := by
  unfold restoreRecord
  dsimp only
  split
  · exact .inr rfl
  · split
    · exact .inr rfl
    · exact .inl rfl

theorem Loading.restore (hl : p.Loading) (saved : Option Addr) (tick : Nat) :
    (p.restore saved tick).1.Index ∧ (p.restore saved tick).1.net = p.net ∧
    (p.restore saved tick).1.byOffset = p.byOffset ∧ (p.restore saved tick).1.byName.lookup "" = none := by
  have hnext := position_mem hl.index saved
  have hi : Index { p with next := (p.position saved).1 } :=
    ⟨hl.index.usable, hnext, hl.index.name, hl.index.offset⟩
  have hroot : p.byName.lookup "" = none := by
    rw [hl.unnamed]
    rfl
  unfold Pool.restore
  dsimp only
  refine foldl_keep (f := Pool.restoreRecord (p.position saved).1 tick)
    (fun q : Pool => q.Index ∧ q.net = p.net ∧ q.byOffset = p.byOffset ∧ q.byName.lookup "" = none ∧
      ∀ k, (q.heap k).domain = (p.heap k).domain ∧ (q.heap k).offset = (p.heap k).offset)
    ?_ ⟨hi, rfl, rfl, hroot, fun _ => ⟨rfl, rfl⟩⟩ |> fun h => ⟨h.1, h.2.1, h.2.2.1, h.2.2.2.1⟩
  rintro q r hr ⟨hq, hnet, hoff, hroot, hheap⟩
  obtain ⟨o, _, ho⟩ := mem_filterMap.mp hr
  have hc : q.current r = true := by
    rw [current_iff, hoff, (hheap r).2, (hl.index.offset o r ho).1]
    exact ho
  have hd : "" ≠ (q.heap r).domain := by
    rw [(hheap r).1]
    exact (hl.named o r ho).symm
  obtain ⟨f₁, f₂, f₃⟩ := restoreRecord_frame (p.position saved).1 tick q r
  refine ⟨hq.restoreRecord _ _ hc, f₁.trans hnet, f₂.trans hoff, ?_,
    fun k => ⟨(f₃ k).1.trans (hheap k).1, (f₃ k).2.trans (hheap k).2⟩⟩
  rcases restoreRecord_byName (p.position saved).1 tick q r with h | h
  · rw [h]
    exact hroot
  · rw [h, lookup_insert_ne hd]
    exact hroot

theorem Index.holdOffset (hi : p.Index) (lastUse : Nat) {offset : Nat} (hm : Ring.Mem firstOffset p.net.usable offset) :
    (holdOffset lastUse p offset).Index := by
  unfold Pool.holdOffset
  split
  · exact hi
  next hn => exact hi.give _ hn hm

theorem holdOffset_net (lastUse : Nat) (p : Pool) (offset : Nat) : (holdOffset lastUse p offset).net = p.net := by
  unfold holdOffset
  split <;> rfl

theorem Index.hold (hi : p.Index) (last lastUse : Nat) : (p.hold last lastUse).Index := by
  unfold Pool.hold
  split
  · exact hi
  refine (foldl_keep (f := Pool.holdOffset lastUse) (fun q : Pool => q.Index ∧ q.net = p.net)
    ?_ ⟨hi, rfl⟩).1
  rintro q o ho ⟨hq, hnet⟩
  obtain ⟨back, _, rfl⟩ := mem_map.mp ho
  refine ⟨hq.holdOffset lastUse ?_, (holdOffset_net lastUse q _).trans hnet⟩
  rw [hnet]
  exact Ring.ahead_mem hi.usable _ _

theorem hold_frame (p : Pool) (last lastUse : Nat) :
    (p.hold last lastUse).net = p.net ∧ (p.hold last lastUse).byName = p.byName := by
  unfold hold
  split
  · exact ⟨rfl, rfl⟩
  · refine foldl_keep (f := holdOffset lastUse) (fun q : Pool => q.net = p.net ∧ q.byName = p.byName)
      (fun q o _ hq => ?_) ⟨rfl, rfl⟩
    unfold holdOffset
    split <;> exact hq

theorem Loading.reload (hl : p.Loading) (saved : Option Addr) (clean : Bool) :
    (p.reload saved clean).Index ∧ (p.reload saved clean).net = p.net ∧
      (p.reload saved clean).byName.lookup "" = none := by
  obtain ⟨hi, hnet, _, hroot⟩ := hl.restore saved (startTick - 1)
  unfold Pool.reload
  split
  next q last he =>
    rw [he] at hi hnet hroot
    split
    · exact ⟨hi, hnet, hroot⟩
    · obtain ⟨h₁, h₂⟩ := hold_frame q last ((startTick - 1 - (idleTicks - protectTicks)) * 2 ^ 32)
      exact ⟨hi.hold _ _, h₁.trans hnet, h₂ ▸ hroot⟩
  next q he =>
    rw [he] at hi hnet hroot
    exact ⟨hi, hnet, hroot⟩

end Pool

end SingBox.FakeIP
