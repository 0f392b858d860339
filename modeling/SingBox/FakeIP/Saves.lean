import SingBox.FakeIP.Marks

/-!
# Saves of a store with a storage

What the critical sections do to the ranges one by one, and that at every moment
of every run each range is in the state the save in progress left it in.
-/
namespace SingBox.FakeIP

open SingBox.Lib List Option Bool Store Phase

/-- The plan of a save between its two critical sections. -/
def Phase.taken : Phase → Option Plan
  | .collected plan => some plan
  | .written plan _ => some plan
  | _ => none

/-- Every range is in the state the save in progress left it in. -/
structure Sys.Marks (x : Sys) : Prop where
  indexed : x.store.Indexed
  saved : x.store.saved = true
  quiet : x.phase.taken = none → ∀ f p, x.store.pool f = some p → p.Quiet x.store.casing.lower
  marked : ∀ plan, x.phase.taken = some plan → ∀ f,
    Option.Rel (fun p q => p.Marked x.store.casing.lower q) (x.store.pool f) (plan.pools f)

variable {f : Family} {q : Pool} {s : Store} {plan : Plan}

/-- The ranges of a store after a query, one by one. -/
theorem Store.Queried.pool_some {s' : Store} {named : Prop} {used : Family → Nat → Prop} (h : s.Queried named used s')
    (hq : s'.pool f = some q) :
    ∃ p, s.pool f = some p ∧ p.Query s named (used f) q :=
  rel_some_right (h.pool f) hq

theorem Store.renew_casing (s : Store) (generation : Nat) : (s.renew generation).casing = s.casing := by
  unfold renew
  split <;> rfl

theorem Store.renew_generation (s : Store) (generation : Nat) : (s.renew generation).generation = generation := by
  unfold renew
  split
  next he => exact he.symm
  · rfl

theorem Store.renew_saved (s : Store) (generation : Nat) : (s.renew generation).saved = s.saved := by
  unfold renew
  split <;> rfl

variable {generation : Nat}

/-- Renewing keeps the ranges, or has all of their records written again. -/
theorem Store.renew_pool (hq : (s.renew generation).pool f = some q) :
    ∃ p, s.pool f = some p ∧ (generation = s.generation ∧ q = p ∨ generation ≠ s.generation ∧ q = p.resave) := by
  unfold renew at hq
  split at hq
  next he => exact ⟨q, hq, .inl ⟨he, rfl⟩⟩
  next hne =>
    obtain ⟨p, hp, rfl⟩ := map_eq_some_iff.mp hq
    exact ⟨p, hp, .inr ⟨hne, rfl⟩⟩

theorem Sys.Marks.renewed {x : Sys} (hx : x.Marks) (ht : x.phase.taken = none)
    (hq : (x.store.renew generation).pool f = some q) :
    q.Quiet x.store.casing.lower := by
  obtain ⟨p, hp, ⟨_, rfl⟩ | ⟨_, rfl⟩⟩ := renew_pool hq
  · exact hx.quiet ht f q hp
  · exact (hx.quiet ht f p hp).resave

theorem Store.plan_pool {r : Request} {visit : Family → List Nat} {tick : Nat}
    (hq : (s.plan r visit tick).1.pool f = some q) :
    ∃ p, s.pool f = some p ∧ q = (p.snapshot r.clean (r.roomOf f) (visit f) tick).1 ∧
      (s.plan r visit tick).2.pools f = some (p.snapshot r.clean (r.roomOf f) (visit f) tick).2 := by
  simp only [plan, Option.map_map] at hq ⊢
  obtain ⟨p, hp, rfl⟩ := Option.map_eq_some_iff.mp hq
  exact ⟨p, hp, rfl, by simp [hp]⟩

theorem Store.complete_pool (hq : (s.complete plan).pool f = some q) :
    ∃ p, s.pool f = some p ∧ q = (plan.pools f).elim p p.complete := by
  simp only [complete] at hq
  cases hp : s.pool f with
  | none => simp [hp] at hq
  | some p =>
    refine ⟨p, rfl, ?_⟩
    cases hpp : plan.pools f with | none | some => simpa [hp, hpp] using hq.symm

theorem Store.abandon_pool (hq : (s.abandon plan).pool f = some q) :
    ∃ p, s.pool f = some p ∧ q = (plan.pools f).elim p (p.abandon (plan.request.roomOf f)) := by
  simp only [abandon] at hq
  cases hp : s.pool f with
  | none => simp [hp] at hq
  | some p =>
    refine ⟨p, rfl, ?_⟩
    cases hpp : plan.pools f with | none | some => simpa [hp, hpp] using hq.symm

theorem Store.expire_pool (hs : s.saved = true) {found : Family → List Removal}
    (hq : (s.expire found).pool f = some q) :
    ∃ p, s.pool f = some p ∧ q = { p with expired := p.expired ++ found f } := by
  obtain ⟨p, hp, rfl⟩ := map_eq_some_iff.mp hq
  exact ⟨p, hp, if_pos hs⟩

section
variable (d : Disk) (puts : List (Addr × String)) (deletes : List Addr) (m : Metadata) (clean : Bool)
include d puts deletes m clean

theorem Disk.saveChanges_table :
    (d.saveChanges puts deletes m clean).table =
      puts.foldl (fun t row => t.insert row.1 row.2) (deletes.foldl (fun t k => t.erase k) d.table) := by
  rw [← foldl_delete_table, ← foldl_put_table]
  rfl

theorem Disk.saveChanges_generation : (d.saveChanges puts deletes m clean).generation = d.generation := by
  have hdel : (deletes.foldl delete d).generation = d.generation :=
    foldl_keep (f := delete) (fun d' : Disk => d'.generation = d.generation) (fun _ _ _ h => h) rfl
  exact foldl_keep (f := put) (fun d' : Disk => d'.generation = d.generation) (fun _ _ _ h => h) hdel

end

theorem Plan.mem_pools {α : Type} {g : PoolPlan → List α} {a : α} :
    a ∈ [Family.inet4, .inet6].flatMap (fun f => ((plan.pools f).map g).getD []) ↔
      ∃ f q, plan.pools f = some q ∧ a ∈ g q := by
  simp only [flatMap_cons, flatMap_nil, append_nil, mem_append]
  constructor
  · rintro (h | h)
    · cases hq : plan.pools .inet4 with
      | none => simp [hq] at h
      | some q => exact ⟨.inet4, q, hq, by simpa [hq] using h⟩
    · cases hq : plan.pools .inet6 with
      | none => simp [hq] at h
      | some q => exact ⟨.inet6, q, hq, by simpa [hq] using h⟩
  · rintro ⟨f, q, hq, h⟩
    cases f with
    | inet4 => exact .inl (by simpa [hq] using h)
    | inet6 => exact .inr (by simpa [hq] using h)

theorem Plan.mem_puts {row : Addr × String} :
    row ∈ plan.puts ↔ ∃ f q, plan.pools f = some q ∧ row ∈ q.puts := mem_pools

theorem Plan.mem_deletes {a : Addr} :
    a ∈ plan.deletes ↔ ∃ f q, plan.pools f = some q ∧ a ∈ q.deletes := mem_pools

theorem Plan.pool_empty (h : plan.empty = true) {q : PoolPlan} (hq : plan.pools f = some q) :
    q.puts = [] ∧ q.deletes = [] ∧ q.reserve = none := by
  simp only [Plan.empty, Plan.puts, Plan.deletes, Plan.changed, List.flatMap_cons, List.flatMap_nil,
    List.append_nil, and_eq_true, List.isEmpty_iff, List.append_eq_nil_iff, not_eq_true',
    Bool.or_eq_false_iff, List.any_cons, List.any_nil, Bool.or_false] at h
  obtain ⟨⟨⟨hp4, hp6⟩, hd4, hd6⟩, _, hr4, hr6⟩ := h
  cases f with
  | inet4 =>
    simp only [hq, map_some, getD_some] at hp4 hd4 hr4
    exact ⟨hp4, hd4, by simpa using hr4⟩
  | inet6 =>
    simp only [hq, map_some, getD_some] at hp6 hd6 hr6
    exact ⟨hp6, hd6, by simpa using hr6⟩

/-! ## Marks -/

namespace Pool

/-- Only the records of the removals are marked. -/
def MarkedBy (removals : List Removal) (p : Pool) : Prop :=
  ∀ r, (p.heap r).removing = true → ∃ c ∈ removals, c.record = r

section
variable {p : Pool} {removals : List Removal}

theorem MarkedBy.unmarked (h : p.MarkedBy []) (r : Nat) : (p.heap r).removing = false := by
  refine eq_false_iff.mpr fun hr => ?_
  obtain ⟨c, hc, _⟩ := h r hr
  cases hc

theorem resave_removing (p : Pool) (r : Nat) : (p.resave.heap r).removing = (p.heap r).removing := by
  simp only [resave]
  split <;> rfl

theorem Query.marked {s : Store} {named : Prop} {used : Nat → Prop} {q : Pool} (h : Query s named used p q)
    (hp : p.MarkedBy removals) : q.MarkedBy removals := by
  intro k hk
  refine hp k ?_
  cases h with
  | keep => exact hk
  | touch r stamp =>
    rw [Pool.touch, update_heap] at hk
    split at hk <;> exact hk
  | walk q _ hw =>
    rw [hw.frame] at hk
    exact hk
  | assign t domain stamp _ hw =>
    rw [hw.assigned] at hk
    split at hk
    · cases hk
    · exact hk

theorem marked_snapshot (hp : p.MarkedBy []) (clean room : Bool) (visit : List Nat) (tick : Nat) :
    (p.snapshot clean room visit tick).1.MarkedBy (p.snapshot clean room visit tick).2.removals := by
  intro r hr
  have hm := (p.chooseRoom room visit tick).markRemovals_marking clean
  refine ((hm.marked r).mp hr).resolve_left fun h => ?_
  rw [(p.sameFlags_chooseRoom room visit tick).removing, hp.unmarked r] at h
  cases h

theorem MarkedBy.complete {plan : PoolPlan} (h : p.MarkedBy plan.removals) : (p.complete plan).MarkedBy [] := by
  have hstart : ({ plan.written.foldl settle p with forgotten := [] } : Pool).MarkedBy plan.removals := by
    intro k hk
    refine h k ?_
    rw [foldl_settle] at hk
    dsimp only at hk
    split at hk <;> exact hk
  have hend := foldl_left (f := finishRemoval) (fun q rest => q.MarkedBy rest)
    (fun q c _ hq _ => (q.finished c).marked hq) plan.removals _ hstart
  intro r hr
  refine hend r ?_
  unfold Pool.complete openReserve at hr
  dsimp only at hr
  split at hr <;> exact hr

theorem forget_heap (p : Pool) (c : Removal) : (p.forget c).heap = p.heap := by
  unfold forget
  dsimp only
  split
  · rfl
  · split <;> rfl

theorem MarkedBy.abandon {plan : PoolPlan} (h : p.MarkedBy plan.removals) (room : Bool) :
    (p.abandon room plan).MarkedBy [] := by
  have hun : (plan.removals.foldl unmark { p with dirty := p.dirty ++ plan.written }).MarkedBy [] := by
    intro r hr
    rw [foldl_unmark] at hr
    dsimp only at hr
    split at hr
    · cases hr
    next hn =>
      obtain ⟨c, hc, rfl⟩ := h r hr
      exact absurd (mem_map_of_mem hc) hn
  unfold Pool.abandon
  dsimp only
  split
  · exact foldl_keep (MarkedBy []) (fun q c _ hq => by rw [MarkedBy, q.forget_heap]; exact hq) hun
  · exact hun

end
end Pool

/-- The records that the save in progress removes from a range. -/
def Phase.removals (ph : Phase) (f : Family) : List Removal :=
  match ph.taken.bind fun plan => plan.pools f with
  | some q => q.removals
  | none => []

/-- Only the records that the save in progress removes are marked. -/
def Sys.Tidy (x : Sys) : Prop := ∀ f p, x.store.pool f = some p → p.MarkedBy (x.phase.removals f)

variable {x : Sys}

variable {p : Pool} {cfg : Config} {x' : Sys} {l : Label}

theorem Sys.Tidy.unmarked (hx : x.Tidy) (ht : x.phase.taken = none) {f : Family} (hp : x.store.pool f = some p)
    (r : Nat) : (p.heap r).removing = false := by
  have h := hx f p hp
  rw [removals, ht] at h
  exact h.unmarked r

theorem Started.tidy (h : Started cfg x) : x.Tidy := by
  rcases h with ⟨d, rfl⟩ | ⟨d, generation, rows, m, clean, rfl⟩
  · intro f p hp r hr
    obtain ⟨n, _, rfl⟩ := map_eq_some_iff.mp hp
    cases hr
  · intro f p hp r hr
    obtain ⟨q, hq, rfl⟩ := map_eq_some_iff.mp hp
    have hplain := (rows_foldl cfg generation rows).plain f q hq
    rw [(hplain.reload ((cfg.casing.lower_eq_empty "").mpr rfl) _ clean).unmarked] at hr
    cases hr

theorem Sys.Tidy.renewed (hx : x.Tidy) (ht : x.phase.taken = none) {f : Family} {q : Pool}
    (hq : (x.store.renew generation).pool f = some q) : q.MarkedBy [] := by
  intro k hk
  obtain ⟨p, hp, ⟨_, rfl⟩ | ⟨_, rfl⟩⟩ := renew_pool hq
  · rw [hx.unmarked ht hp] at hk
    cases hk
  · rw [p.resave_removing, hx.unmarked ht hp] at hk
    cases hk

theorem Sys.Move.tidy (hm : x.Move l x') (hx : x.Tidy) : x'.Tidy := by
  have hidle : ∀ {ph : Phase}, x.phase.taken = none → ph.taken = none → Tidy { x with phase := ph } := by
    intro ph ht ht' f p hp
    have h := hx f p hp
    rw [removals, ht] at h
    rw [removals, show ph.taken = none from ht']
    exact h
  cases hm with
  | query l s _ hq =>
    intro f q hp
    obtain ⟨p, hp', hpq⟩ := hq.pool_some hp
    exact hpq.marked (hx f p hp')
  | sweep found _ =>
    intro f q hp
    obtain ⟨p, hp', rfl⟩ := map_eq_some_iff.mp hp
    split
    · exact hx f p hp'
    · refine foldl_keep (f := release) (fun q : Pool => q.MarkedBy (x.phase.removals f)) (fun q c _ h => ?_)
        (hx f p hp')
      unfold release
      split <;> exact h
  | makeRoom f visit tick =>
    intro g q hp
    obtain ⟨p, hp', rfl⟩ := map_eq_some_iff.mp hp
    dsimp only
    split
    · exact foldl_keep (f := fun (p : Pool) (c : Removal) => p.remove c.record)
        (fun q : Pool => q.MarkedBy (x.phase.removals g)) (fun _ _ _ h => h) (hx g p hp')
    · exact hx g p hp'
  | start _ hp | refuse _ _ _ _ hp | resetUnsaved _ hp | resetStorage hp => exact hidle (by rw [hp]; rfl) rfl
  | spare r generation visit tick hp =>
    exact fun f q hq => hx.renewed (by rw [hp]; rfl) hq
  | collect r generation visit tick hp =>
    intro f q hq
    -- the ranges of a save are those of the store, with the marks the save makes
    obtain ⟨p, hpool, rfl, hpp⟩ := plan_pool hq
    have h := Pool.marked_snapshot (hx.renewed (by rw [hp]; rfl) hpool) r.clean (r.roomOf f) (visit f) tick
    dsimp only [removals]
    split_ifs with he
    · have hnil := map_eq_nil_iff.mp (append_eq_nil_iff.mp (Plan.pool_empty he hpp).2.1).1
      exact hnil ▸ h
    · simp only [taken, bind_some, hpp]
      exact h
  | fail _ hp | write _ hp => exact fun f p hpool => by simpa [removals, hp, taken] using hx f p hpool
  | complete plan hp =>
    intro f q hq
    obtain ⟨p, hpool, rfl⟩ := complete_pool hq
    have h := hx f p hpool
    simp only [removals, hp, taken, bind_some] at h
    cases hpp : plan.pools f with
    | none => rwa [hpp] at h
    | some pp =>
      rw [hpp] at h
      exact Pool.MarkedBy.complete h
  | abandon plan hp =>
    intro f q hq
    obtain ⟨p, hpool, rfl⟩ := abandon_pool hq
    have h := hx f p hpool
    simp only [removals, hp, taken, bind_some] at h
    cases hpp : plan.pools f with
    | none => rwa [hpp] at h
    | some pp =>
      rw [hpp] at h
      exact Pool.MarkedBy.abandon h _
  | resetMemory hp =>
    intro f q hq k hk
    obtain ⟨p, hp', rfl⟩ := map_eq_some_iff.mp hq
    have hun := hx.unmarked (by rw [hp]; rfl) hp' k
    exact absurd (hun.symm.trans hk) false_ne_true
  | _ => exact hx

theorem Pool.Marked.empty {lower : String → String} {plan : PoolPlan} (hm : p.Marked lower plan) (hp : plan.puts = [])
    (hd : plan.deletes = []) : plan.removals = [] ∧ plan.written = [] := by
  constructor
  · refine eq_nil_iff_forall_not_mem.mpr fun c hc => ?_
    have h := hm.removed c hc
    rw [hd] at h
    cases h
  · have h := hm.puts
    rw [hp] at h
    exact map_eq_nil_iff.mp h.symm

theorem Opened.marks (h : Opened cfg x) : x.Marks := by
  have hi := h.indexed
  obtain ⟨d, generation, rows, m, clean, rfl⟩ := h
  have hr := rows_foldl cfg generation rows
  refine ⟨hi, ?_, fun _ f p hp => ?_, fun plan hp => by cases hp⟩
  · simp only [load, mapPools]
    rw [hr.frame]
    rfl
  · simp only [load, mapPools] at hp ⊢
    obtain ⟨q, hq, rfl⟩ := map_eq_some_iff.mp hp
    rw [hr.casing]
    exact ((hr.plain f q hq).reload ((cfg.casing.lower_eq_empty "").mpr rfl) _ clean).quiet

theorem Sys.Marks.move (hx : x.Marks) (hm : x.Move l x') (hn : l.named) :
    x'.Marks := by
  have hi := hm.indexed hx.indexed
  cases hm with
  | query l s _ hq =>
    refine ⟨hi, hq.saved.trans hx.saved, fun ht f q hp => ?_, fun plan ht f => ?_⟩
    · obtain ⟨p, hp, hpq⟩ := hq.pool_some hp
      have hqu := hx.quiet ht f p hp
      dsimp only
      rw [hq.casing]
      rcases hpq.flags hx.saved hn (hx.indexed f p hp).1 with hs | ⟨r, o, ha⟩
      · exact hqu.same hs
      · exact hqu.added ha
    · dsimp only
      rw [hq.casing]
      refine rel_move (hq.pool f) (hx.marked plan ht f) fun p q pp hp hpq hma => ?_
      rcases hpq.flags hx.saved hn (hx.indexed f p hp).1 with hs | ⟨r, o, ha⟩
      · exact hma.same hs
      · exact hma.added ha
  | scan | close | recreate => exact ⟨hi, hx.saved, hx.quiet, hx.marked⟩
  | sweep found _ =>
    refine ⟨hi, hx.saved, fun ht f q hp => ?_, fun plan ht f => ?_⟩
    · obtain ⟨p, hp', rfl⟩ := expire_pool hx.saved hp
      exact (hx.quiet ht f p hp').same (p.sameFlags_expired _)
    have hpool : (x.store.expire found).pool f =
        (x.store.pool f).map fun p => { p with expired := p.expired ++ found f } := by
      simp only [expire, mapPools, hx.saved, if_true]
    have hrel : Option.Rel (fun p q => q = { p with expired := p.expired ++ found f }) (x.store.pool f)
        ((x.store.pool f).map fun p => { p with expired := p.expired ++ found f }) := by
      cases x.store.pool f with
      | none => exact .none
      | some p => exact .some rfl
    dsimp only
    rw [hpool]
    refine rel_move hrel (hx.marked plan ht f) fun p q pp _ hq hma => ?_
    rw [hq]
    exact hma.same (p.sameFlags_expired _)
  | makeRoom _ _ _ hs | resetUnsaved _ _ hs => rw [hx.saved] at hs; cases hs
  | start _ hp | refuse _ _ _ _ hp | resetStorage hp =>
    exact ⟨hi, hx.saved, fun _ => hx.quiet (by rw [hp]; rfl), fun plan ht => by cases ht⟩
  | spare r generation visit tick hp =>
    refine ⟨hi, (x.store.renew_saved generation).trans hx.saved, fun _ f q hq => ?_, fun plan ht => by cases ht⟩
    dsimp only
    rw [x.store.renew_casing generation]
    exact hx.renewed (by rw [hp]; rfl) hq
  | collect r generation visit tick hp =>
    have hma : ∀ f, Option.Rel (fun p q => p.Marked x.store.casing.lower q)
        (((x.store.renew generation).plan r visit tick).1.pool f)
        (((x.store.renew generation).plan r visit tick).2.pools f) := by
      intro f
      simp only [plan, Option.map_map]
      cases hpool : (x.store.renew generation).pool f with
      | none => exact .none
      | some p =>
        have hquiet := hx.renewed (by rw [hp]; rfl) hpool
        exact .some (hquiet.snapshot ((x.store.thins_renew generation).indexed hx.indexed f p hpool).1 _ _ _ _)
    have hcas : ((x.store.renew generation).plan r visit tick).1.casing = x.store.casing :=
      x.store.renew_casing generation
    refine ⟨hi, (x.store.renew_saved generation).trans hx.saved, ?_, ?_⟩
    · intro ht f q hq
      obtain ⟨pp, hpp, hm⟩ := rel_some (hma f) hq
      dsimp only at ht ⊢
      rw [hcas]
      split at ht
      next he =>
        obtain ⟨hpu, hde, _⟩ := Plan.pool_empty he hpp
        obtain ⟨hr, hw⟩ := hm.empty hpu hde
        exact hm.quiet hr hw
      · cases ht
    · intro plan ht f
      dsimp only at ht ⊢
      rw [hcas]
      split at ht
      · cases ht
      · cases ht
        exact hma f
  | fail _ hp | write _ hp =>
    exact ⟨hi, hx.saved, (fun ht => by cases ht), fun p ht => hx.marked p (by rw [hp]; exact ht)⟩
  | complete plan hp =>
    refine ⟨hi, hx.saved, fun _ f q hq => ?_, fun plan ht => by cases ht⟩
    obtain ⟨p, hpool, rfl⟩ := complete_pool hq
    obtain ⟨pp, hpp, hma⟩ := rel_some (hx.marked plan (by rw [hp]; rfl) f) hpool
    rw [hpp]
    exact hma.complete
  | abandon plan hp =>
    refine ⟨hi, hx.saved, fun _ f q hq => ?_, fun plan ht => by cases ht⟩
    obtain ⟨p, hpool, rfl⟩ := abandon_pool hq
    obtain ⟨pp, hpp, hma⟩ := rel_some (hx.marked plan (by rw [hp]; rfl) f) hpool
    rw [hpp]
    exact hma.abandon (hx.indexed f p hpool).1 _
  | resetFailed hp => exact hx
  | resetMemory hp =>
    refine ⟨hi, hx.saved, fun _ f q hq => ?_, fun plan ht => by cases ht⟩
    obtain ⟨p, hpool, rfl⟩ := map_eq_some_iff.mp hq
    exact (hx.quiet (by rw [hp]; rfl) f p hpool).clear

end SingBox.FakeIP
