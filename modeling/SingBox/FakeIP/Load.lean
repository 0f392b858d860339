import SingBox.FakeIP.Queries

/-!
# What a load makes of the saved rows

Every row that is accepted becomes a record with the row's domain, nothing else
has a domain, and after a stop that was not clean the offsets that end at the
saved position are held back.
-/
namespace SingBox.FakeIP

open SingBox.Lib List Function AList Store

namespace Pool

/-- Nothing is to be written or removed, and there is no reserve. -/
structure Plain (lower : String → String) (p : Pool) : Prop where
  lowered : ∀ r, lower (p.heap r).domain = (p.heap r).domain
  settled : ∀ r, (p.heap r).dirty = false
  unmarked : ∀ r, (p.heap r).removing = false
  dirty : p.dirty = []
  expired : p.expired = []
  forgotten : p.forgotten = []
  reserved : p.reserved = false
  budget : p.budget = 0

section
variable {lower : String → String} {p : Pool}

theorem Plain.new (net : Prefix) (h : lower "" = "") : (new net).Plain lower :=
  ⟨fun _ => h, fun _ => rfl, fun _ => rfl, rfl, rfl, rfl, rfl, rfl⟩

section
variable (hp : p.Plain lower)
include hp

theorem Plain.give {x : Record} (hl : lower x.domain = x.domain) (hd : x.dirty = false) (hr : x.removing = false) :
    (p.give x).Plain lower := by
  have hheap : ∀ k, (p.give x).heap k = if k = p.fresh then x else p.heap k := by
    intro k
    by_cases hk : k = p.fresh
    · rw [if_pos hk, hk]
      exact p.give_heap_fresh x
    · rw [if_neg hk]
      exact update_of_ne hk _ _
  refine ⟨?_, ?_, ?_, hp.dirty, hp.expired, hp.forgotten, hp.reserved, hp.budget⟩
  · intro k
    rw [hheap]
    split
    · exact hl
    · exact hp.lowered k
  · intro k
    rw [hheap]
    split
    · exact hd
    · exact hp.settled k
  · intro k
    rw [hheap]
    split
    · exact hr
    · exact hp.unmarked k

theorem Plain.touch (r stamp : Nat) : (p.touch r stamp).Plain lower := by
  have hheap : ∀ k, (p.touch r stamp).heap k = { p.heap k with lastUse := ((p.touch r stamp).heap k).lastUse } := by
    intro k
    rw [Pool.touch, update_heap]
    split <;> rfl
  refine ⟨?_, ?_, ?_, hp.dirty, hp.expired, hp.forgotten, hp.reserved, hp.budget⟩
  · intro k; rw [hheap]; exact hp.lowered k
  · intro k; rw [hheap]; exact hp.settled k
  · intro k; rw [hheap]; exact hp.unmarked k

theorem Plain.restoreRecord (next tick r : Nat) :
    (restoreRecord next tick p r).Plain lower := by
  have ht (stamp : Nat) := hp.touch r stamp
  unfold Pool.restoreRecord
  dsimp only
  split
  · exact ⟨(ht _).lowered, (ht _).settled, (ht _).unmarked, hp.dirty, hp.expired, hp.forgotten, hp.reserved, hp.budget⟩
  · split
    · exact ⟨(ht _).lowered, (ht _).settled, (ht _).unmarked, hp.dirty, hp.expired, hp.forgotten, hp.reserved,
        hp.budget⟩
    · exact ht _

theorem Plain.restore (saved : Option Addr) (tick : Nat) :
    (p.restore saved tick).1.Plain lower :=
  foldl_keep (Plain lower) (fun _ r _ hq => hq.restoreRecord _ tick r)
    ⟨hp.lowered, hp.settled, hp.unmarked, hp.dirty, hp.expired, hp.forgotten, hp.reserved, hp.budget⟩

theorem Plain.hold (hl : lower "" = "") (last lastUse : Nat) :
    (p.hold last lastUse).Plain lower := by
  unfold Pool.hold
  split
  · exact hp
  · refine foldl_keep (Plain lower) (fun q o _ hq => ?_) hp
    unfold holdOffset
    split
    · exact hq
    · exact hq.give hl rfl rfl

theorem Plain.reload (hl : lower "" = "") (saved : Option Addr) (clean : Bool) :
    (p.reload saved clean).Plain lower := by
  have h := hp.restore saved (startTick - 1)
  unfold Pool.reload
  split
  next q last he =>
    rw [he] at h
    split
    · exact h
    · exact h.hold hl _ _
  next q he =>
    rw [he] at h
    exact h

end

end

/-- `q` leads wherever `p` led, and what it has besides is held back. -/
structure Holds (p q : Pool) : Prop where
  net : q.net = p.net
  old : ∀ o r, p.byOffset.lookup o = some r →
    q.byOffset.lookup o = some r ∧ (q.heap r).domain = (p.heap r).domain
  new : ∀ o r, q.byOffset.lookup o = some r → p.byOffset.lookup o = some r ∨ (q.heap r).held = true

variable {p : Pool}

theorem Holds.trans {q t : Pool} (h : Holds p q) (h' : Holds q t) : Holds p t where
  net := h'.net.trans h.net
  old := by
    intro o r hr
    obtain ⟨h₁, h₂⟩ := h.old o r hr
    obtain ⟨h₃, h₄⟩ := h'.old o r h₁
    exact ⟨h₃, h₄.trans h₂⟩
  new := by
    intro o r hr
    rcases h'.new o r hr with hr | hr
    · rcases h.new o r hr with hr' | hr'
      · exact .inl hr'
      · right
        rw [Record.held, (h'.old o r hr).2]
        exact hr'
    · exact .inr hr

theorem holds_restore (p : Pool) (saved : Option Addr) (tick : Nat) :
    Holds p (p.restore saved tick).1 := by
  refine foldl_keep (f := restoreRecord (p.position saved).1 tick) (Holds p) ?_
    ⟨rfl, fun _ _ h => ⟨h, rfl⟩, fun _ _ h => .inl h⟩
  intro q r _ hq
  obtain ⟨f₁, f₂, f₃⟩ := restoreRecord_frame (p.position saved).1 tick q r
  refine hq.trans ⟨f₁, fun o k hk => ⟨f₂ ▸ hk, (f₃ k).1⟩, fun o k hk => .inl (f₂ ▸ hk)⟩

theorem holds_holdOffset (hi : p.Index) (lastUse o : Nat) : Holds p (holdOffset lastUse p o) := by
  unfold holdOffset
  split
  · exact ⟨rfl, fun _ _ h => ⟨h, rfl⟩, fun _ _ h => .inl h⟩
  next hn =>
    refine ⟨rfl, fun o' r hr => ?_, fun o' r hr => ?_⟩
    · have hne : o' ≠ o := by
        rintro rfl
        rw [hn] at hr
        cases hr
      exact ⟨give_lookup_eq_some.mpr (.inr ⟨hne, hr⟩), congrArg Record.domain (give_heap hi _ hr)⟩
    · rcases give_lookup_eq_some.mp hr with ⟨_, rfl⟩ | ⟨_, hr⟩
      · right
        rw [p.give_heap_fresh]
        rfl
      · exact .inl hr

/-- The offsets that end at `last` all lead somewhere afterwards. -/
theorem holds_hold (hi : p.Index) (last lastUse : Nat) :
    Holds p (p.hold last lastUse) ∧
    (firstOffset ≤ last → ∀ o, Ring.Window firstOffset p.net.usable last p.net.step o →
      (p.hold last lastUse).byOffset.lookup o ≠ none) := by
  unfold hold
  split
  next hlt => exact ⟨⟨rfl, fun _ _ h => ⟨h, rfl⟩, fun _ _ h => .inl h⟩, fun hle => absurd hlt (Nat.not_lt.mpr hle)⟩
  · generalize hoffs : (List.range p.net.step).map (fun back => p.ahead last (p.net.usable - back)) = offs
    have hmem : ∀ o ∈ offs, Ring.Mem firstOffset p.net.usable o := by
      intro o ho
      rw [← hoffs] at ho
      obtain ⟨back, _, rfl⟩ := mem_map.mp ho
      exact Ring.ahead_mem hi.usable _ _
    have hwin : ∀ o, Ring.Window firstOffset p.net.usable last p.net.step o → o ∈ offs := by
      rintro o ⟨back, hb, rfl⟩
      rw [← hoffs]
      exact mem_map.mpr ⟨back, mem_range.mpr hb, rfl⟩
    have h := foldl_left (f := holdOffset lastUse)
      (fun q rest => q.Index ∧ Holds p q ∧ (∀ o ∈ rest, Ring.Mem firstOffset p.net.usable o) ∧
        ∀ o ∈ offs, o ∈ rest ∨ q.byOffset.lookup o ≠ none)
      ?_ offs p ⟨hi, ⟨rfl, fun _ _ h => ⟨h, rfl⟩, fun _ _ h => .inl h⟩, hmem, fun o ho => .inl ho⟩
    · refine ⟨h.2.1, fun _ o ho => ?_⟩
      exact (h.2.2.2 o (hwin o ho)).resolve_left not_mem_nil
    · rintro q o rest ⟨hq, hh, hm, hled⟩
      have hnet : q.net = p.net := hh.net
      have ho := hm o mem_cons_self
      have hs := holds_holdOffset hq lastUse o
      refine ⟨hq.holdOffset lastUse (hnet ▸ ho), hh.trans hs, fun o' ho' => hm o' (mem_cons_of_mem o ho'), ?_⟩
      intro o' ho'
      rcases hled o' ho' with hc | hl
      · rcases mem_cons.mp hc with rfl | hc
        · right
          unfold holdOffset
          split
          next r hr =>
            rw [hr]
            simp
          · rw [q.give_lookup ⟨"", o', lastUse, false, false⟩]
            simp
        · exact .inl hc
      · right
        obtain ⟨r, hr⟩ := Option.ne_none_iff_exists'.mp hl
        rw [(hs.old o' r hr).1]
        simp

theorem holds_reload (hl : p.Loading) (saved : Option Addr) (clean : Bool) :
    Holds p (p.reload saved clean) := by
  have hr := p.holds_restore saved (startTick - 1)
  have hi := (hl.restore saved (startTick - 1)).1
  unfold reload
  split
  next q last he =>
    rw [he] at hr hi
    split
    · exact hr
    · exact hr.trans (holds_hold hi _ _).1
  next q he =>
    rw [he] at hr
    exact hr

/-- After a stop that was not clean nothing that may be in use is free. -/
theorem window_reload (hl : p.Loading) {last : Nat} (hm : Ring.Mem firstOffset p.net.usable last) {o : Nat}
    (ho : Ring.Window firstOffset p.net.usable last p.net.step o) :
    (p.reload (some (p.net.address last)) false).byOffset.lookup o ≠ none := by
  have hlt : last < p.net.stop := p.net.usable_add hl.index.usable ▸ hm.2
  have hpos : p.position (some (p.net.address last)) = (p.after last, some last) := by
    simp only [position, Option.bind_some, p.net.offset_address hlt]
  have hi := hl.restore (some (p.net.address last)) (startTick - 1)
  unfold reload
  have he : p.restore (some (p.net.address last)) (startTick - 1) =
      ((p.restore (some (p.net.address last)) (startTick - 1)).1, some last) := by
    refine Prod.ext rfl ?_
    show (p.position (some (p.net.address last))).2 = some last
    rw [hpos]
  rw [he]
  refine (holds_hold hi.1 last _).2 hm.1 o ?_
  rw [hi.2.1]
  exact ho

end Pool

namespace Store

/-- The store after the rows of `seen` were read. -/
structure Rows (cfg : Config) (generation : Nat) (s : Store) (seen : List (Addr × String)) : Prop where
  frame : s = { new cfg true generation with pool := s.pool }
  nets : ∀ f, (s.pool f).map Pool.net = cfg.range f
  loading : s.Loading
  plain : ∀ f p, s.pool f = some p → p.Plain cfg.casing.lower
  record : ∀ f p, s.pool f = some p → ∀ o r, p.byOffset.lookup o = some r →
    ∃ w, (p.net.address o, w) ∈ seen ∧ w ≠ "" ∧ (p.heap r).domain = cfg.casing.lower w
  present : (seen.map Prod.fst).Nodup → ∀ f p, s.pool f = some p → ∀ o w,
    Ring.Mem firstOffset p.net.usable o → (p.net.address o, w) ∈ seen → w ≠ "" →
    ∃ r, p.byOffset.lookup o = some r ∧ (p.heap r).domain = cfg.casing.lower w

variable {cfg : Config} {generation : Nat} {s : Store}

variable {seen : List (Addr × String)}

theorem Rows.casing (h : s.Rows cfg generation seen) :
    s.casing = cfg.casing := by
  rw [h.frame]
  rfl

theorem rows_new (cfg : Config) (generation : Nat) :
    (new cfg true generation).Rows cfg generation [] := by
  have hl : cfg.casing.lower "" = "" := (cfg.casing.lower_eq_empty "").mpr rfl
  refine ⟨rfl, ?_, ?_, ?_, ?_, ?_⟩
  · intro f
    simp only [new, Option.map_map]
    exact Option.map_id_apply
  · intro f p hp
    obtain ⟨hi, hf⟩ := Indexed.new cfg true generation f p hp
    obtain ⟨n, _, rfl⟩ := Option.map_eq_some_iff.mp hp
    exact ⟨⟨hi, rfl, fun o r h => by cases h⟩, hf⟩
  · intro f p hp
    obtain ⟨n, _, rfl⟩ := Option.map_eq_some_iff.mp hp
    exact .new n hl
  · intro f p hp o r hr
    obtain ⟨n, _, rfl⟩ := Option.map_eq_some_iff.mp hp
    cases hr
  · intro _ f p hp o w _ hw
    cases hw

/-- An address of a range with a domain is accepted. -/
theorem accepts_address (hs : s.Loading) {f : Family} {p : Pool} (hp : s.pool f = some p) {o : Nat}
    (hm : Ring.Mem firstOffset p.net.usable o) {w : String} (hw : w ≠ "") :
    s.accepts (p.net.address o, w) = some (f, p, o) := by
  have hlt : o < p.net.stop := p.net.usable_add (hs f p hp).1.index.usable ▸ hm.2
  simp only [accepts, hs.indexed.poolOf hp (p.net.contains_address hlt), if_neg hw,
    p.net.offset_address hlt]
  rw [if_neg (Nat.not_lt.mpr hm.1)]

theorem Rows.loadRow (h : s.Rows cfg generation seen) (row : Addr × String) :
    (s.loadRow row).Rows cfg generation (seen ++ [row]) := by
  have hload := h.loading.loadRow row
  unfold Store.loadRow at hload ⊢
  split at hload
  next ha =>
    refine ⟨h.frame, h.nets, h.loading, h.plain, ?_, ?_⟩
    · intro f p hp o r hr
      obtain ⟨w, hw, hrest⟩ := h.record f p hp o r hr
      exact ⟨w, mem_append_left _ hw, hrest⟩
    intro hn f p hp o w hm hw hne
    rw [map_append, nodup_append] at hn
    rcases mem_append.mp hw with hw | hw
    · exact h.present hn.1 f p hp o w hm hw hne
    · rw [← mem_singleton.mp hw, accepts_address h.loading hp hm hne] at ha
      cases ha
  next g q o ha =>
    obtain ⟨hf, hd, ho, hle⟩ := accepts_eq_some ha
    have hq := (poolOf_eq_some hf).1
    have hqi := (h.loading g q hq).1.index
    have haddr : row.1 = q.net.address o := (q.net.offset_eq_some ho).2.2
    have hd' : s.casing.lower row.2 ≠ "" := fun h => hd ((s.casing.lower_eq_empty row.2).mp h)
    have hlow : cfg.casing.lower (s.casing.lower row.2) = s.casing.lower row.2 := by
      rw [h.casing]
      exact cfg.casing.lower_lower row.2
    generalize hx : (⟨s.casing.lower row.2, o, 0, false, false⟩ : Record) = x at hload ⊢
    have hxo : o = x.offset := by rw [← hx]
    refine ⟨?_, ?_, hload, ?_, ?_, ?_⟩
    · rw [h.frame]
      rfl
    · intro f
      by_cases hfg : f = g
      · subst hfg
        rw [← h.nets f, hq]
        simp [setPool, Pool.give]
      · simp only [setPool, update_of_ne hfg]
        exact h.nets f
    · intro f p hp
      rcases setPool_eq_some.mp hp with ⟨rfl, rfl⟩ | ⟨_, hp⟩
      · refine (h.plain f q hq).give ?_ ?_ ?_ <;> rw [← hx]
        exact hlow
      · exact h.plain f p hp
    · intro f p hp o' r hr
      rcases setPool_eq_some.mp hp with ⟨rfl, rfl⟩ | ⟨_, hp⟩
      · rcases Pool.give_lookup_eq_some.mp hr with ⟨rfl, rfl⟩ | ⟨_, hr⟩
        · refine ⟨row.2, mem_append_right _ ?_, hd, ?_⟩
          · rw [mem_singleton, ← hxo]
            exact Prod.ext haddr.symm rfl
          · rw [q.give_heap_fresh, ← hx, h.casing]
        · obtain ⟨w, hw, hrest⟩ := h.record f q hq o' r hr
          rw [Pool.give_heap hqi x hr]
          exact ⟨w, mem_append_left _ hw, hrest⟩
      · obtain ⟨w, hw, hrest⟩ := h.record f p hp o' r hr
        exact ⟨w, mem_append_left _ hw, hrest⟩
    · intro hn f p hp o' w hm hw hne
      rw [map_append, nodup_append] at hn
      rcases setPool_eq_some.mp hp with ⟨rfl, rfl⟩ | ⟨hfg, hp⟩
      · have hm' : Ring.Mem firstOffset q.net.usable o' := hm
        by_cases hoo : o' = o
        · subst hoo
          refine ⟨q.fresh, hxo ▸ q.give_lookup x, ?_⟩
          rcases mem_append.mp hw with hw | hw
          · -- an address has one row
            have := hn.2.2 _ (mem_map_of_mem hw) _ (mem_map_of_mem (mem_singleton_self row))
            exact absurd haddr.symm this
          · rw [q.give_heap_fresh, ← hx, h.casing, ← mem_singleton.mp hw]
        · have hw' : (q.net.address o', w) ∈ seen := by
            rcases mem_append.mp hw with hw | hw
            · exact hw
            exfalso
            have he : q.net.address o' = q.net.address o := by
              rw [← haddr, ← mem_singleton.mp hw]
              rfl
            have hst := q.net.usable_add hqi.usable
            exact hoo (q.net.address_injective (hst ▸ hm'.2) (q.net.offset_eq_some ho).1 he)
          obtain ⟨r, hr, hdom⟩ := h.present hn.1 f q hq o' w hm' hw' hne
          refine ⟨r, Pool.give_lookup_eq_some.mpr (.inr ⟨hxo ▸ hoo, hr⟩), ?_⟩
          rw [Pool.give_heap hqi x hr]
          exact hdom
      · rcases mem_append.mp hw with hw | hw
        · exact h.present hn.1 f p hp o' w hm hw hne
        · exfalso
          rw [← mem_singleton.mp hw, accepts_address h.loading hp hm hne] at ha
          cases ha
          exact hfg rfl

theorem rows_foldl (cfg : Config) (generation : Nat) (rows : List (Addr × String)) :
    (rows.foldl loadRow (new cfg true generation)).Rows cfg generation rows :=
  foldl_seen (f := loadRow) (fun s seen => s.Rows cfg generation seen)
    (fun _ _ row h => h.loadRow row) rows (rows_new cfg generation)

end Store

namespace Disk

theorem mem_rows {d : Disk} {a : Addr} {w : String} : (a, w) ∈ d.rows ↔ d.table.lookup a = some w := by
  rw [← Option.mem_def, mem_lookup_iff, rows, mem_map]
  constructor
  · rintro ⟨e, he, hw⟩
    cases hw
    exact he
  · intro h
    exact ⟨⟨a, w⟩, h, rfl⟩

theorem rows_nodup (d : Disk) : (d.rows.map Prod.fst).Nodup := by
  rw [rows, map_map]
  exact d.table.nodupKeys

theorem foldl_delete_table (l : List Addr) (d : Disk) :
    (l.foldl delete d).table = l.foldl (fun t k => t.erase k) d.table := by
  induction l generalizing d with
  | nil => rfl
  | cons a l ih =>
    rw [foldl_cons, foldl_cons, ih]
    rfl

theorem foldl_put_table (l : List (Addr × String)) (d : Disk) :
    (l.foldl put d).table = l.foldl (fun t row => t.insert row.1 row.2) d.table := by
  induction l generalizing d with
  | nil => rfl
  | cons a l ih =>
    rw [foldl_cons, foldl_cons, ih]
    rfl

end Disk

/-- A range and the saved table agree after a load. -/
structure Pool.LoadedFrom (lower : String → String) (t : AList fun _ : Addr => String) (p : Pool) :
    Prop where
  index : p.Index
  plain : p.Plain lower
  record : ∀ o r, p.byOffset.lookup o = some r → (p.heap r).held = false →
    ∃ w, t.lookup (p.net.address o) = some w ∧ lower w = (p.heap r).domain
  row : ∀ o w, Ring.Mem firstOffset p.net.usable o → t.lookup (p.net.address o) = some w → w ≠ "" →
    ∃ r, p.byOffset.lookup o = some r ∧ (p.heap r).held = false ∧ lower w = (p.heap r).domain

section
variable {cfg : Config} {d : Disk} {f : Family} {p : Pool}

theorem loaded_pool (hp : (Sys.loaded cfg d).store.pool f = some p) :
    ∃ q, (d.rows.foldl Store.loadRow (Store.new cfg true d.generation)).pool f = some q ∧
      p = q.reload ((d.rows.foldl Store.loadRow (Store.new cfg true d.generation)).savedPosition d.metadata f)
        d.clean.isSome := by
  simp only [Sys.loaded, load, mapPools] at hp
  obtain ⟨q, hq, rfl⟩ := Option.map_eq_some_iff.mp hp
  exact ⟨q, hq, rfl⟩

theorem loaded_from (hp : (Sys.loaded cfg d).store.pool f = some p) :
    p.LoadedFrom cfg.casing.lower d.table ∧ cfg.range f = some p.net := by
  obtain ⟨q, hq, rfl⟩ := loaded_pool hp
  have hr := rows_foldl cfg d.generation d.rows
  obtain ⟨hl, _⟩ := hr.loading f q hq
  obtain ⟨hi, hnet, _⟩ := hl.reload
    ((d.rows.foldl Store.loadRow (Store.new cfg true d.generation)).savedPosition d.metadata f) d.clean.isSome
  have hh := Pool.holds_reload hl
    ((d.rows.foldl Store.loadRow (Store.new cfg true d.generation)).savedPosition d.metadata f) d.clean.isSome
  have hpl := (hr.plain f q hq).reload ((cfg.casing.lower_eq_empty "").mpr rfl)
    ((d.rows.foldl Store.loadRow (Store.new cfg true d.generation)).savedPosition d.metadata f) d.clean.isSome
  generalize q.reload _ d.clean.isSome = p at hi hnet hh hpl
  refine ⟨⟨hi, hpl, ?_, ?_⟩, ?_⟩
  · intro o r hor hheld
    rcases hh.new o r hor with hor' | hheld'
    · obtain ⟨w, hw, _, hdom⟩ := hr.record f q hq o r hor'
      refine ⟨w, ?_, ?_⟩
      · rw [hnet]
        exact Disk.mem_rows.mp hw
      · rw [(hh.old o r hor').2, hdom]
    · rw [hheld] at hheld'
      cases hheld'
  · intro o w hm hw hne
    rw [hnet] at hm hw
    obtain ⟨r, hor, hdom⟩ := hr.present d.rows_nodup f q hq o w hm (Disk.mem_rows.mpr hw) hne
    obtain ⟨h₁, h₂⟩ := hh.old o r hor
    refine ⟨r, h₁, ?_, by rw [h₂, hdom]⟩
    rw [Record.held, h₂]
    simpa using hl.named o r hor
  · rw [← hr.nets f, hq, hnet]
    rfl

theorem loaded_range (d : Disk) {n : Prefix} (hn : cfg.range f = some n) :
    ∃ p, (Sys.loaded cfg d).store.pool f = some p ∧ p.net = n := by
  cases hp : (Sys.loaded cfg d).store.pool f with
  | none =>
    have hnone := Option.map_eq_none_iff.mp hp
    rw [← (rows_foldl cfg d.generation d.rows).nets f, hnone] at hn
    cases hn
  | some p =>
    have h := (loaded_from hp).2
    rw [hn] at h
    exact ⟨p, rfl, (Option.some.inj h).symm⟩

/-- The offsets that end at the saved position of a store that was not stopped. -/
theorem loaded_window (hp : (Sys.loaded cfg d).store.pool f = some p) {m : Metadata} {last o : Nat}
    (hclean : d.clean = none) (hm : d.cursor = some m) (hr : m.range f = some p.net)
    (hc : m.current f = some (p.net.address last)) (hl : Ring.Mem firstOffset p.net.usable last)
    (ho : Ring.Window firstOffset p.net.usable last p.net.step o) : p.byOffset.lookup o ≠ none := by
  obtain ⟨q, hq, rfl⟩ := loaded_pool hp
  have hrows := rows_foldl cfg d.generation d.rows
  obtain ⟨hload, _⟩ := hrows.loading f q hq
  have hnet := (hload.reload ((d.rows.foldl Store.loadRow
    (Store.new cfg true d.generation)).savedPosition d.metadata f) d.clean.isSome).2.1
  rw [hnet] at hr hc hl ho
  have hpos : (d.rows.foldl Store.loadRow (Store.new cfg true d.generation)).savedPosition d.metadata f =
      some (q.net.address last) := by
    simp [savedPosition, Disk.metadata, hclean, hm, hr, hq, hc]
  rw [hpos, hclean]
  exact Pool.window_reload hload hl ho

end

/-- A load leaves the rows it accepted: those of an address of a range, with a domain. -/
theorem loaded_table {cfg : Config} {d : Disk} {a : Addr} {w : String} :
    (Sys.loaded cfg d).disk.table.lookup a = some w ↔
      d.table.lookup a = some w ∧ w ≠ "" ∧
        ∃ f n o, cfg.range f = some n ∧ Ring.Mem firstOffset n.usable o ∧ a = n.address o := by
  have hnew := rows_new cfg 0
  have hlook : (Sys.loaded cfg d).disk.table.lookup a =
      if a ∈ cfg.refused d then none else d.table.lookup a := by
    simp only [Sys.loaded, Disk.afterLoad, Disk.foldl_delete_table]
    exact Table.lookup_foldl_erase _ _ _
  have hacc : (((Store.new cfg true 0).accepts (a, w)).isSome ↔
      w ≠ "" ∧ ∃ f n o, cfg.range f = some n ∧ Ring.Mem firstOffset n.usable o ∧ a = n.address o) := by
    constructor
    · intro h
      obtain ⟨⟨f, p, o⟩, ha⟩ := Option.isSome_iff_exists.mp h
      obtain ⟨hf, hd, ho, hle⟩ := accepts_eq_some ha
      have hp := (poolOf_eq_some hf).1
      obtain ⟨hlt, _, he⟩ := p.net.offset_eq_some ho
      refine ⟨hd, f, p.net, o, ?_, ⟨hle, ?_⟩, he⟩
      · rw [← hnew.nets f, hp]
        rfl
      · rw [p.net.usable_add (hnew.loading f p hp).1.index.usable]
        exact hlt
    · rintro ⟨hw, f, n, o, hn, hm, rfl⟩
      have hp : (Store.new cfg true 0).pool f = some (Pool.new n) := by simp [Store.new, hn]
      have h := accepts_address hnew.loading hp hm hw
      rw [show (Pool.new n).net = n from rfl] at h
      rw [h]
      rfl
  have hrefused : d.table.lookup a = some w →
      (a ∈ cfg.refused d ↔ ((Store.new cfg true 0).accepts (a, w)).isNone) := by
    intro hl
    simp only [Config.refused, mem_map, mem_filter]
    constructor
    · rintro ⟨⟨b, v⟩, ⟨hb, hn⟩, rfl⟩
      have hv := Disk.mem_rows.mp hb
      rw [hl] at hv
      cases hv
      exact hn
    · intro hn
      exact ⟨(a, w), ⟨Disk.mem_rows.mpr hl, hn⟩, rfl⟩
  rw [hlook, ← hacc]
  constructor
  · intro h
    split at h
    · cases h
    next hn =>
      refine ⟨h, ?_⟩
      rw [hrefused h, Option.isNone_iff_eq_none] at hn
      exact Option.isSome_iff_ne_none.mpr hn
  · rintro ⟨h, hs⟩
    rw [if_neg]
    · exact h
    · rw [hrefused h, Option.isNone_iff_eq_none]
      exact Option.isSome_iff_ne_none.mp hs

end SingBox.FakeIP
