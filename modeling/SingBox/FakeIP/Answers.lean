import SingBox.FakeIP.Queries

/-!
# What `Create` answers

A record keeps its domain and its offset for as long as it is reachable. With
the indexes consistent this makes an answered address lead back to the domain
it was answered for, and to no other while the record is there.
-/
namespace SingBox.FakeIP

open SingBox.Lib Option Sys Store

namespace Pool

/-- The records of `p` are the same records in `q`. -/
structure Extends (p q : Pool) : Prop where
  net : q.net = p.net
  fresh : p.fresh ≤ q.fresh
  domain : ∀ r, r < p.fresh → (q.heap r).domain = (p.heap r).domain

theorem Extends.refl (p : Pool) : Extends p p := ⟨rfl, le_refl _, fun _ _ => rfl⟩

variable {p q : Pool}

theorem Extends.trans {t : Pool} (h : Extends p q) (h' : Extends q t) : Extends p t where
  net := h'.net.trans h.net
  fresh := le_trans h.fresh h'.fresh
  domain := fun r hr => (h'.domain r (lt_of_lt_of_le hr h.fresh)).trans (h.domain r hr)

theorem Thins.extends (h : Thins p q) : Extends p q :=
  ⟨h.net, le_of_eq h.fresh.symm, fun r _ => h.domain r⟩

theorem Query.extends {s : Store} {named : Prop} {used : Nat → Prop} (h : Query s named used p q) : Extends p q := by
  cases h with
  | keep => exact .refl p
  | touch r stamp => exact Thins.extends (.same (sameIndex_touch p r stamp))
  | walk q _ hw => rw [hw.frame]; exact ⟨rfl, le_refl _, fun _ _ => rfl⟩
  | assign q domain stamp _ hw =>
    rw [hw.frame]
    refine ⟨rfl, Nat.le_succ _, fun r hr => ?_⟩
    exact congrArg Record.domain (Function.update_of_ne (ne_of_lt hr) _ _)

end Pool

/-- Nothing happened to the records of any range. -/
def Store.Extends (s t : Store) : Prop := ∀ f, Option.Rel Pool.Extends (s.pool f) (t.pool f)

namespace Store

theorem Extends.refl (s : Store) : s.Extends s := by
  intro f
  cases s.pool f with
  | none => exact .none
  | some p => exact .some (.refl p)

variable {s : Store}

theorem Extends.trans {t u : Store} (h : s.Extends t) (h' : t.Extends u) : s.Extends u :=
  fun f => rel_trans (h f) (h' f) fun _ _ _ => Pool.Extends.trans

end Store

theorem Sys.Move.extends {x x' : Sys} {l : Label} (hm : x.Move l x') : x.store.Extends x'.store := by
  intro f
  rcases hm.thins with hq | hf | ht
  · exact rel_imp (hq.pool f) fun _ _ h => h.extends
  · rw [hf]
    simp only [forgetAll, mapPools]
    cases x.store.pool f with
    | none => exact .none
    | some p => exact .some ⟨rfl, le_refl _, fun _ _ => rfl⟩
  · exact rel_imp (ht f) fun _ _ h => h.extends

/-- The range, the domain and the address of a `Create` that answers in this step. -/
def Sys.creates (x : Sys) : Label → Option (Family × String × Addr)
  | .create f domain tick =>
    match (x.store.create f domain tick).2 with
    | some (.address a) => some (f, domain, a)
    | _ => none
  | .allocate f domain tick =>
    match (x.store.allocate f domain tick x.disk.generation).2 with
    | .address a => some (f, domain, a)
    | _ => none
  | _ => none

namespace Store

/-- The record an address of the range leads to, held back or not. -/
def recordAt (s : Store) (f : Family) (a : Addr) : Option Nat :=
  (s.pool f).bind fun p => (p.net.offset a).bind p.byOffset.lookup

/-- The address leads to a record of the range with this domain. -/
def Leads (s : Store) (f : Family) (a : Addr) (domain : String) : Prop :=
  ∃ p r, s.pool f = some p ∧ p.current r = true ∧ a = p.net.address (p.heap r).offset ∧
    (p.heap r).domain = domain

variable {s : Store} {f : Family} {p : Pool} {r : Nat} {a : Addr} {domain : String}

theorem offset_lt (hi : p.Index) (hr : p.current r = true) :
    (p.heap r).offset < p.net.stop := by
  have hm := (hi.offset _ r ((p.current_iff r).mp hr)).2.2.2
  rwa [p.net.usable_add hi.usable] at hm

theorem recordAt_address (hp : s.pool f = some p) (hi : p.Index) (hr : p.current r = true) :
    s.recordAt f (p.net.address (p.heap r).offset) = some r := by
  simp only [recordAt, hp, bind_some, p.net.offset_address (offset_lt hi hr)]
  exact (p.current_iff r).mp hr

theorem Leads.lookup (hs : s.Indexed) (h : s.Leads f a domain) (hd : domain ≠ "") (tick : Nat) :
    (s.lookup a tick).2 = some domain := by
  obtain ⟨p, r, hp, hr, rfl, rfl⟩ := h
  have hi := (hs f p hp).1
  have ho := offset_lt hi hr
  have hh : (p.heap r).held = false := by simpa [Record.held] using hd
  simp only [lookup, hs.poolOf hp (p.net.contains_address ho), p.net.offset_address ho,
    (p.current_iff r).mp hr, hh]
  rfl

theorem leads_of_named {d : String} (hs : s.Indexed) (hp : s.pool f = some p) (hd : d ≠ "")
    (hr : p.byName.lookup d = some r) (tick : Nat) :
    (s.touch f p r tick).Leads f (p.net.address (p.heap r).offset) d := by
  have hi := (hs f p hp).1
  have ht := p.sameIndex_touch r (s.stamp tick)
  refine ⟨p.touch r (s.stamp tick), r, by simp [touch, setPool], ?_, ?_, ?_⟩
  · rw [ht.current]
    exact (named_current hi hd hr).1
  · rw [ht.offset, ht.net]
  · rw [ht.domain]
    exact (hi.name d r hd hr).1

theorem leads_assign (s : Store) (f : Family) (q : Pool) (saved : Bool) (domain : String)
    (offset stamp : Nat) :
    (s.setPool f (q.assign saved domain offset stamp)).Leads f (q.net.address offset) domain := by
  have hx : (q.assign saved domain offset stamp).heap q.fresh = ⟨domain, offset, stamp, saved, false⟩ :=
    q.give_heap_fresh _
  refine ⟨q.assign saved domain offset stamp, q.fresh, by simp [setPool], ?_, ?_, ?_⟩
  · rw [Pool.current_iff, hx]
    exact q.give_lookup _
  · rw [hx]
    rfl
  · rw [hx]

theorem allocate_address {s' : Store} {tick generation : Nat}
    (h : s.allocate f domain tick generation = (s', .address a)) :
    ∃ p, s.pool f = some p ∧
      ((∃ r, p.byName.lookup (s.casing.lower domain) = some r ∧ s' = s.touch f p r tick ∧
          a = p.net.address (p.heap r).offset) ∨
        ∃ t, Pool.Walk s.saved s.storageFailed p t ∧ t.byOffset.lookup t.next = none ∧
          a = t.net.address t.next ∧
          s' = { s.setPool f ((t.advance s.saved).assign s.saved (s.casing.lower domain) t.next
            (s.stamp tick)) with uses := s.nextUse }) := by
  unfold allocate at h
  split at h
  · cases h
  next p hp =>
    refine ⟨p, hp, ?_⟩
    dsimp only at h
    split at h
    next r hr =>
      cases h
      exact .inl ⟨r, hr, rfl, rfl⟩
    · split at h
      · cases h
      split at h
      · cases h
      split at h
      · cases h
      have hw := p.search_walk s.saved s.storageFailed p.net.usable
      split at h <;> rename_i he <;> rw [he] at hw <;> cases h
      obtain ⟨t, hw, _, hfree, rfl, rfl⟩ := hw
      exact .inr ⟨t, hw, hfree, rfl, rfl⟩

theorem allocate_leads {s' : Store} {tick generation : Nat} (hs : s.Indexed) (hd : domain ≠ "")
    (h : s.allocate f domain tick generation = (s', .address a)) :
    s'.Leads f a (s.casing.lower domain) := by
  obtain ⟨p, hp, ⟨r, hr, rfl, rfl⟩ | ⟨t, _, _, rfl, rfl⟩⟩ := allocate_address h
  · exact leads_of_named hs hp (s.lower_ne hd) hr tick
  · exact leads_assign s f (t.advance s.saved) s.saved _ t.next _

end Store

variable {x x' : Sys} {l : Label} {f : Family} {d : String} {a : Addr} {cfg : Config} {r : Nat}
  {past : List (Sys × Label)}

/-- After an answer of `Create` the address leads to the domain that was asked for. -/
theorem Sys.creates_leads (hx : x.store.Indexed) (hd : d ≠ "") (hc : x.creates l = some (f, d, a))
    (h : x.step l = some x') :
    x'.store.Leads f a (x.store.casing.lower d) := by
  cases l with
  | create g e tick =>
    cases h
    simp only [creates, create] at hc ⊢
    cases hp : x.store.pool g with
    | none => simp [hp] at hc
    | some p =>
      simp only [hp] at hc ⊢
      cases hr : p.byName.lookup (x.store.casing.lower e) with
      | none => simp [hr] at hc
      | some r =>
        simp only [hr, Option.some.injEq, Prod.mk.injEq] at hc ⊢
        obtain ⟨rfl, rfl, rfl⟩ := hc
        exact leads_of_named hx hp (x.store.lower_ne hd) hr tick
  | allocate g e tick =>
    simp only [step] at h
    simp only [creates] at hc
    split at h
    · cases h
    next s ans hns he =>
      cases h
      rw [he] at hc
      cases ans with
      | address b =>
        simp only [Option.some.injEq, Prod.mk.injEq] at hc
        obtain ⟨rfl, rfl, rfl⟩ := hc
        exact allocate_leads hx hd he
      | _ => cases hc
  | _ => cases hc

/-- The address `Create` answers is the one of the record with that name, or is free. -/
theorem Sys.creates_cases (hc : x.creates l = some (f, d, a)) :
    ∃ p, x.store.pool f = some p ∧
      ((∃ r, p.byName.lookup (x.store.casing.lower d) = some r ∧ a = p.net.address (p.heap r).offset) ∨
        ∃ t, Pool.Walk x.store.saved x.store.storageFailed p t ∧ t.byOffset.lookup t.next = none ∧
          a = t.net.address t.next) := by
  cases l with
  | create g d tick =>
    simp only [creates, create] at hc
    cases hq : x.store.pool g with
    | none => simp [hq] at hc
    | some q =>
      simp only [hq] at hc
      cases hk : q.byName.lookup (x.store.casing.lower d) with
      | none => simp [hk] at hc
      | some k =>
        simp only [hk, Option.some.injEq, Prod.mk.injEq] at hc
        obtain ⟨rfl, rfl, ha⟩ := hc
        exact ⟨q, hq, .inl ⟨k, hk, ha.symm⟩⟩
  | allocate g d tick =>
    simp only [creates] at hc
    split at hc
    next b hb =>
      simp only [Option.some.injEq, Prod.mk.injEq] at hc
      obtain ⟨rfl, rfl, rfl⟩ := hc
      have hallocate : x.store.allocate g d tick x.disk.generation =
          ((x.store.allocate g d tick x.disk.generation).1, .address b) := Prod.ext rfl hb
      obtain ⟨q, hq, hcase⟩ := allocate_address hallocate
      refine ⟨q, hq, hcase.imp ?_ ?_⟩
      · rintro ⟨k, hk, _, ha⟩
        exact ⟨k, hk, ha⟩
      · rintro ⟨t, hw, hfree, ha, _⟩
        exact ⟨t, hw, hfree, ha⟩
    · cases hc
  | _ => cases hc

/-- `Create` answers an address that leads somewhere only for the domain it leads to. -/
theorem Sys.creates_record {p : Pool} (hx : x.store.Indexed) (hd : d ≠ "") (hc : x.creates l = some (f, d, a))
    (hp : x.store.pool f = some p) (hr : x.store.recordAt f a = some r) :
    (p.heap r).domain = x.store.casing.lower d := by
  have hi := (hx f p hp).1
  obtain ⟨q, hq, hcase⟩ := creates_cases hc
  rw [hp] at hq
  cases hq
  rcases hcase with ⟨k, hk, rfl⟩ | ⟨t, hw, hfree, rfl⟩
  · have hd' := x.store.lower_ne hd
    rw [recordAt_address hp hi (named_current hi hd' hk).1] at hr
    rw [← Option.some.inj hr]
    exact (hi.name _ k hd' hk).1
  · -- the walk ended at an offset that leads nowhere
    have hlt : t.next < t.net.stop := by
      have hm := (hw.index hi).next.2
      rwa [t.net.usable_add (hw.index hi).usable] at hm
    rw [recordAt, hp, bind_some, ← hw.net, t.net.offset_address hlt, bind_some,
      ← hw.byOffset, hfree] at hr
    cases hr

/-- An address of one range is not answered from the other. -/
theorem Sys.creates_family {g : Family} (hx : x.store.Indexed) (hc : x.creates l = some (g, d, a))
    (hr : x.store.recordAt f a = some r) :
    g = f := by
  have ha : a.family = g := by
    obtain ⟨q, hq, ⟨k, _, rfl⟩ | ⟨t, hw, _, rfl⟩⟩ := creates_cases hc
    · rw [q.net.address_family]
      exact (hx g q hq).2
    · rw [t.net.address_family, hw.net]
      exact (hx g q hq).2
  obtain ⟨p, hp, hr⟩ := bind_eq_some_iff.mp hr
  obtain ⟨o, ho, _⟩ := bind_eq_some_iff.mp hr
  rw [← ha, (p.net.offset_eq_some ho).2.1.1]
  exact (hx f p hp).2

theorem Sys.Move.casing (hm : x.Move l x') : x'.store.casing = x.store.casing := by
  have hr (generation : Nat) : (x.store.renew generation).casing = x.store.casing := by
    unfold renew
    split <;> rfl
  cases hm with
  | query l s _ hq => exact hq.casing
  | spare _ generation | collect _ generation => exact hr generation
  | _ => rfl

theorem Started.casing (h : Started cfg x) : x.store.casing = cfg.casing := by
  rcases h with ⟨d, rfl⟩ | ⟨d, generation, rows, m, clean, rfl⟩
  · rfl
  · refine foldl_keep (f := loadRow) (fun s : Store => s.casing = cfg.casing) ?_ rfl
    intro s row _ hs
    unfold loadRow
    split <;> exact hs

/-- No range has the root name. -/
def Store.Unrooted (s : Store) : Prop := ∀ f p, s.pool f = some p → p.byName.lookup "" = none

theorem Started.unrooted (h : Started cfg x) : x.store.Unrooted := by
  rcases h with ⟨d, rfl⟩ | ⟨d, generation, rows, m, clean, rfl⟩
  · intro f p hp
    obtain ⟨n, _, rfl⟩ := map_eq_some_iff.mp hp
    rfl
  · intro f q hq
    obtain ⟨p, hp, rfl⟩ := map_eq_some_iff.mp hq
    exact ((loading_rows cfg generation rows f p hp).1.reload _ clean).2.2

theorem Sys.Move.unrooted (hm : x.Move l x') (hn : l.named) (hx : x.store.Unrooted) :
    x'.store.Unrooted := by
  intro f q hq
  rcases hm.thins with h | h | h
  · obtain ⟨p, hp, hpq⟩ := rel_some_right (h.pool f) hq
    have hroot := hx f p hp
    cases hpq with
    | keep | touch => exact hroot
    | walk q _ hw => rw [hw.frame]; exact hroot
    | assign t domain stamp _ hw _ _ hd =>
      show (t.byName.insert domain _).lookup "" = none
      rw [AList.lookup_insert_ne (hd hn).symm, hw.frame]
      exact hroot
  · rw [h] at hq
    obtain ⟨p, _, rfl⟩ := map_eq_some_iff.mp hq
    rfl
  · obtain ⟨p, hp, hpq⟩ := rel_some_right (h f) hq
    refine eq_none_iff_forall_ne_some.mpr fun r hr => ?_
    cases (hx f p hp).symm.trans (hpq.name hr)

/-- In every run the indexes are consistent, but for the root name. -/
theorem indexed_run (hrun : (machine (Started cfg)).Run past x) : x.store.Indexed ∧ x.store.casing = cfg.casing := by
  refine hrun.always (I := fun x => x.store.Indexed ∧ x.store.casing = cfg.casing)
    (fun x (hx : Started cfg x) => ⟨hx.indexed, hx.casing⟩) ?_
  rintro x x' l ⟨hx, hc⟩ hs
  have hm := step_move hs
  exact ⟨hm.indexed hx, hm.casing.trans hc⟩

theorem unrooted_run (hrun : (machine (Started cfg)).Run past x) (hal : System.Along (fun _ l => l.named) past) :
    x.store.Unrooted :=
  hrun.invariant (I := fun x => x.store.Unrooted) (fun _ hx => Started.unrooted hx)
    (fun _ _ _ hx hn hs => (step_move hs).unrooted hn hx) hal

/-- The two indexes of a range lead to the same records, each at its offset. -/
structure Pool.Consistent (p : Pool) : Prop where
  name : ∀ d r, p.byName.lookup d = some r →
    (p.heap r).domain = d ∧ p.byOffset.lookup (p.heap r).offset = some r
  offset : ∀ o r, p.byOffset.lookup o = some r → firstOffset ≤ o ∧ o < p.net.stop ∧ (p.heap r).offset = o

theorem Pool.Index.consistent {p : Pool} (hi : p.Index) (hroot : p.byName.lookup "" = none) : p.Consistent := by
  refine ⟨fun d r h => hi.name d r (fun hd => ?_) h, fun o r h => ?_⟩
  · rw [hd, hroot] at h
    cases h
  obtain ⟨ho, _, hm⟩ := hi.offset o r h
  exact ⟨hm.1, p.net.usable_add hi.usable ▸ hm.2, ho⟩

theorem extends_since (hrun : (machine (Started cfg)).Run past x) :
    ∀ e ∈ past, ∀ y, step e.1 e.2 = some y → y.store.Extends x.store :=
  hrun.since (R := fun x y : Sys => x.store.Extends y.store) (fun x => .refl x.store)
    (fun _ _ _ h h' => h.trans h')
    (fun _ _ _ _ _ _ _ hs => (step_move hs).extends) (System.along_true past)

theorem Sys.creates_named (hn : l.named) (hc : x.creates l = some (f, d, a)) : d ≠ "" := by
  cases l with
  | create | allocate =>
    simp only [creates] at hc
    split at hc
    · cases hc; exact hn
    · cases hc
  | _ => cases hc

/-- The record an address leads to still has its domain later. -/
theorem Store.Leads.later {s t : Store} {q : Pool} (h : s.Leads f a d) (hs : s.Indexed) (hr : s.recordAt f a = some r)
    (he : s.Extends t) (hq : t.pool f = some q) : (q.heap r).domain = d := by
  obtain ⟨p, k, hp, hk, rfl, rfl⟩ := h
  have hi := (hs f p hp).1
  rw [recordAt_address hp hi hk] at hr
  obtain rfl := Option.some.inj hr
  have hf := he f
  rw [hp, hq] at hf
  cases hf with
  | some hf => exact hf.domain k (hi.offset _ k ((p.current_iff k).mp hk)).2.1

/-- In every run without the root name: the indexes are consistent; an answered
address leads back to its domain; and it is answered for no other domain while
its record is there. -/
theorem create_leads_back (cfg : Config) (past : List (Sys × Label)) (x : Sys)
    (hrun : (machine (Started cfg)).Run past x) (hal : System.Along (fun _ l => l.named) past) :
    (∀ f p, x.store.pool f = some p → p.Consistent) ∧
    (∀ l x' f d a tick, l.named → x.creates l = some (f, d, a) → x.step l = some x' →
      (x'.store.lookup a tick).2 = some (cfg.casing.lower d)) ∧
    (∀ y l y' f d a r, (y, l) ∈ past → y.creates l = some (f, d, a) → y.step l = some y' →
      y'.store.recordAt f a = some r → x.store.recordAt f a = some r →
      ∀ l' f' d', l'.named → x.creates l' = some (f', d', a) → cfg.casing.lower d' = cfg.casing.lower d) := by
  obtain ⟨hx, hcas⟩ := indexed_run hrun
  refine ⟨fun f p hp => (hx f p hp).1.consistent (unrooted_run hrun hal f p hp), ?_, ?_⟩
  · intro l x' f d a tick hn hc hs
    have hd := creates_named hn hc
    have hl := creates_leads hx hd hc hs
    rw [hcas] at hl
    exact hl.lookup ((step_move hs).indexed hx) (hcas ▸ x.store.lower_ne hd) tick
  · intro y l y' f d a r hmem hc hs hr hr' l' f' d' hn' hc'
    obtain ⟨earlier, hsub, hrun'⟩ := hrun.before (y, l) hmem
    obtain ⟨hy, hcy⟩ := indexed_run hrun'
    have hy' := (step_move hs).indexed hy
    have hext := extends_since hrun (y, l) hmem y' hs
    have hff := creates_family hx hc' hr'
    subst hff
    obtain ⟨q, hq, _⟩ := bind_eq_some_iff.mp hr'
    have hd := (creates_leads hy (creates_named (hal _ hmem) hc) hc hs).later hy' hr hext hq
    rw [← hcas, ← creates_record hx (creates_named hn' hc') hc' hq hr', hd, hcy, hcas]

/-- The state a list of labels leads to from the start of the store without a storage. -/
def unsavedRun (cfg : Config) (ls : List Label) : Option Sys :=
  (machine (Started cfg)).exec ls ⟨.new cfg false 0, ⟨∅, none, none, 0⟩, .idle, none⟩

theorem unsavedRun_run {ls : List Label} (h : unsavedRun cfg ls = some x) :
    (machine (Started cfg)).Run ((machine (Started cfg)).trace ls
      ⟨.new cfg false 0, ⟨∅, none, none, 0⟩, .idle, none⟩ []) x :=
  System.run_exec (.start _ (.inl ⟨_, rfl⟩)) h

theorem create_leads_back_slash30 :
    ∃ x, unsavedRun slash30 [.allocate .inet4 "A.example" 864002] = some x ∧
      (∀ f p, x.store.pool f = some p → p.Consistent) ∧
      ∀ x', x.step (.create .inet4 "a.EXAMPLE" 864003) = some x' →
        (x'.store.lookup ⟨.inet4, 3323068418, ""⟩ 864004).2 = some "a.example" := by
  let x := (unsavedRun slash30 [.allocate .inet4 "A.example" 864002]).get (by decide +kernel)
  have hx : unsavedRun slash30 [.allocate .inet4 "A.example" 864002] = some x := (some_get _).symm
  have h := create_leads_back slash30 _ x (unsavedRun_run hx)
    (System.along_exec (by decide +kernel))
  refine ⟨x, hx, h.1, fun x' hs => ?_⟩
  have hl := h.2.1 (.create .inet4 "a.EXAMPLE" 864003) x' .inet4 "a.EXAMPLE" ⟨.inet4, 3323068418, ""⟩ 864004
    (by decide) (by decide +kernel) hs
  rw [hl]
  decide +kernel

/-- The root name got the only address, its record expired, and the address went
to another domain: the name still leads to the record that is gone. -/
def rootName : List Label :=
  [.allocate .inet4 "" 864002, .sweepScan (fun _ => [2]) 2000000, .sweepApply,
    .allocate .inet4 "x" 2000001]

theorem create_root_name_leads_elsewhere :
    ∃ x, (machine (Started slash30)).Reachable x ∧
      x.creates (.create .inet4 "" 2000002) = some (.inet4, "", ⟨.inet4, 3323068418, ""⟩) ∧
      ∃ x', x.step (.create .inet4 "" 2000002) = some x' ∧
        (x'.store.lookup ⟨.inet4, 3323068418, ""⟩ 2000003).2 = some "x" :=
  ⟨(unsavedRun slash30 rootName).get (by decide +kernel),
    ⟨_, unsavedRun_run (some_get _).symm⟩, by decide +kernel, _, rfl, by decide +kernel⟩

end SingBox.FakeIP
