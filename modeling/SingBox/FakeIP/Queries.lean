import SingBox.FakeIP.Index

/-!
# What a query does to a range

`Create` and `Lookup` change a range in three ways only: they mark a record as
used, they walk over offsets in use, and they give the offset the walk ended at
to a new record. Everything later is derived from these moves.
-/
namespace SingBox.FakeIP

open SingBox.Lib Option Function Bool

namespace Pool

/-- The walk may go on: there is a reserve, or the storage is not asked for one. -/
def mayStep (saved failed : Bool) (p : Pool) : Prop := saved = true → failed = false → 0 < p.budget

inductive Walk (saved failed : Bool) : Pool → Pool → Prop
  | stop (p : Pool) : Walk saved failed p p
  | step (p q : Pool) : p.mayStep saved failed → Walk saved failed (p.advance saved) q →
      Walk saved failed p q

theorem search_walk (saved failed : Bool) (rounds : Nat) (p : Pool) :
    match search saved failed rounds p with
    | (q, .free o) => ∃ t, Walk saved failed p t ∧ t.mayStep saved failed ∧
        t.byOffset.lookup t.next = none ∧ o = t.next ∧ q = t.advance saved
    | (q, _) => Walk saved failed p q := by
  induction rounds generalizing p with
  | zero => exact .stop p
  | succ rounds ih =>
    rw [search]
    by_cases hb : (saved && p.budget == 0 && !failed) = true
    · rw [if_pos hb]
      exact .stop p
    rw [if_neg hb]
    have hm : p.mayStep saved failed := by
      intro hs hf
      simp only [hs, hf, Bool.true_and, Bool.not_false, Bool.and_true, beq_iff_eq] at hb
      exact Nat.pos_of_ne_zero hb
    cases hl : p.byOffset.lookup p.next with
    | none => exact ⟨p, .stop p, hm, hl, rfl, rfl⟩
    | some r =>
      dsimp only
      have h := ih (p.advance saved)
      split at h
      · obtain ⟨t, hw, ht⟩ := h
        exact ⟨t, .step p t hm hw, ht⟩
      · exact .step p _ hm h

variable {saved failed : Bool} {p q : Pool}

section
variable (hw : Walk saved failed p q)
include hw

theorem Walk.index (hi : p.Index) : q.Index := by
  induction hw with
  | stop p => exact hi
  | step p q _ _ ih => exact ih (hi.advance saved)

theorem Walk.frame :
    q = { p with next := q.next, advanced := q.advanced, budget := q.budget } := by
  induction hw with
  | stop p => rfl
  | step p q _ _ ih =>
    rw [ih]
    rfl

theorem Walk.net : q.net = p.net := by
  rw [hw.frame]

theorem Walk.byOffset :
    q.byOffset = p.byOffset := by
  rw [hw.frame]

/-- The records behind a walk that ended at an offset to give out. -/
theorem Walk.assigned (domain : String) (stamp k : Nat) :
    ((q.advance saved).assign saved domain q.next stamp).heap k =
      if k = p.fresh then ⟨domain, q.next, stamp, saved, false⟩ else p.heap k := by
  rw [hw.frame]
  exact update_apply _ _ _ _

end

/-- The moves of one query of the store on a range; `named` says that it is not
about the root name, and `used` are the records it uses. -/
inductive Query (s : Store) (named : Prop) (used : Nat → Prop) (p : Pool) : Pool → Prop
  | keep : Query s named used p p
  | touch (r stamp : Nat) : used r → (named → p.Index → p.current r = true ∧ (p.heap r).held = false) →
      Query s named used p (p.touch r stamp)
  | walk (q : Pool) : s.closed = false → Walk s.saved s.storageFailed p q → Query s named used p q
  | assign (q : Pool) (domain : String) (stamp : Nat) : s.closed = false →
      Walk s.saved s.storageFailed p q → q.mayStep s.saved s.storageFailed →
      q.byOffset.lookup q.next = none → (named → domain ≠ "") → s.casing.lower domain = domain →
      Query s named used p ((q.advance s.saved).assign s.saved domain q.next stamp)

section
variable {s : Store} {named : Prop} {used : Nat → Prop} {p q : Pool}

theorem Query.net (h : Query s named used p q) : q.net = p.net := by
  cases h with
  | keep | touch => rfl
  | walk _ _ hw | assign _ _ _ _ hw => exact hw.net

theorem Query.index (h : Query s named used p q) (hi : p.Index) : q.Index := by
  cases h with
  | keep => exact hi
  | touch r stamp => exact (p.sameIndex_touch r stamp).index hi
  | walk q _ hw => exact hw.index hi
  | assign q domain stamp _ hw _ hfree =>
    have hq := hw.index hi
    exact (hq.advance s.saved).assign s.saved domain stamp hfree hq.next

end
end Pool

variable {α β : Type} {R : α → β → Prop} {a : Option α} {b : Option β}

variable {γ : Type} {c : Option γ}

theorem rel_move {S : α → γ → Prop} {T : β → γ → Prop} (hb : Option.Rel R a b) (hc : Option.Rel S a c)
    (h : ∀ x y z, a = some x → R x y → S x z → T y z) : Option.Rel T b c := by
  cases hb with
  | none => cases hc; exact .none
  | some hb => cases hc with | some hc => exact .some (h _ _ _ rfl hb hc)

theorem rel_trans {S : β → γ → Prop} {T : α → γ → Prop} (h : Option.Rel R a b) (h' : Option.Rel S b c)
    (hT : ∀ x y z, R x y → S y z → T x z) : Option.Rel T a c := by
  cases h with
  | none => cases h'; exact .none
  | some h => cases h' with | some h' => exact .some (hT _ _ _ h h')

theorem rel_some {x : α} (h : Option.Rel R a b) (ha : a = some x) : ∃ y, b = some y ∧ R x y := by
  cases h with
  | none => cases ha
  | some h => cases ha; exact ⟨_, rfl, h⟩

theorem rel_some_right {y : β} (h : Option.Rel R a b) (hb : b = some y) : ∃ x, a = some x ∧ R x y := by
  cases h with
  | none => cases hb
  | some h => cases hb; exact ⟨_, rfl, h⟩

theorem rel_imp {S : α → β → Prop} (h : Option.Rel R a b) (hRS : ∀ x y, R x y → S x y) : Option.Rel S a b := by
  cases h with
  | none => exact .none
  | some h => exact .some (hRS _ _ h)

/-- Only the ranges and the count of uses may be different. -/
structure Store.Queried (s : Store) (named : Prop) (used : Family → Nat → Prop) (s' : Store) : Prop where
  casing : s'.casing = s.casing
  saved : s'.saved = s.saved
  closed : s'.closed = s.closed
  generation : s'.generation = s.generation
  storageFailed : s'.storageFailed = s.storageFailed
  pool : ∀ g, Option.Rel (Pool.Query s named (used g)) (s.pool g) (s'.pool g)

namespace Store

/-- Every range is consistent and belongs to its own family. -/
def Indexed (s : Store) : Prop := ∀ f p, s.pool f = some p → p.Index ∧ p.net.family = f

variable {s : Store} {p : Pool} {f : Family}

theorem poolOf_eq_some {a : Addr} (h : s.poolOf a = some (f, p)) :
    s.pool f = some p ∧ p.net.Contains a := by
  have h6 : poolOf.poolOf6 s a = some (f, p) → s.pool f = some p ∧ p.net.Contains a := by
    intro h
    unfold poolOf.poolOf6 at h
    split at h
    next q hq =>
      split at h
      next hc =>
        cases h
        exact ⟨hq, hc⟩
      · cases h
    · cases h
  unfold poolOf at h
  split at h
  next q hq =>
    split at h
    next hc =>
      cases h
      exact ⟨hq, hc⟩
    · exact h6 h
  · exact h6 h

/-- The ranges have different families, so an address finds its own range. -/
theorem Indexed.poolOf (hs : s.Indexed) (hp : s.pool f = some p) {a : Addr} (hc : p.net.Contains a) :
    s.poolOf a = some (f, p) := by
  have hf := (hs f p hp).2
  have h6 : f = .inet6 → poolOf.poolOf6 s a = some (f, p) := by
    rintro rfl
    simp [poolOf.poolOf6, hp, hc]
  unfold Store.poolOf
  cases f with
  | inet4 => simp [hp, hc]
  | inet6 =>
    split
    next q hq =>
      have hq4 := (hs _ q hq).2
      have hnc : ¬ q.net.Contains a := by
        intro h
        have := h.1.symm.trans hc.1
        rw [hq4, hf] at this
        cases this
      rw [if_neg hnc]
      exact h6 rfl
    · exact h6 rfl

theorem Queried.keep (s : Store) (named : Prop) (used : Family → Nat → Prop) : s.Queried named used s := by
  refine ⟨rfl, rfl, rfl, rfl, rfl, fun g => ?_⟩
  cases s.pool g with
  | none => exact .none
  | some p => exact .some .keep

variable {used : Family → Nat → Prop} {t : Store}

theorem Queried.setPool {named : Prop} {q : Pool} (hp : s.pool f = some p) (hq : p.Query s named (used f) q)
    (uses : Nat) :
    s.Queried named used { s.setPool f q with uses := uses } := by
  refine ⟨rfl, rfl, rfl, rfl, rfl, fun g => ?_⟩
  by_cases hg : g = f
  · subst hg
    rw [hp]
    simp only [setPool, update_self]
    exact .some hq
  · simp only [Store.setPool, update_of_ne hg]
    exact (Queried.keep s named used).pool g

theorem Queried.indexed {s' : Store} {named : Prop} (h : s.Queried named used s') (hs : s.Indexed) : s'.Indexed := by
  intro f q hq
  obtain ⟨p, hp, hr⟩ := rel_some_right (h.pool f) hq
  exact ⟨hr.index (hs f p hp).1, by rw [hr.net]; exact (hs f p hp).2⟩

/-- The record the name of a question leads to. -/
def named (s : Store) (f : Family) (domain : String) : Option Nat :=
  (s.pool f).bind fun p => p.byName.lookup (s.casing.lower domain)

/-- The record an address is answered from. -/
def addressed (s : Store) (a : Addr) : Option (Family × Nat) :=
  match s.poolOf a with
  | none => none
  | some (f, p) =>
    match (p.net.offset a).bind p.byOffset.lookup with
    | none => none
    | some r => if (p.heap r).held then none else some (f, r)

theorem named_current (hi : p.Index) {d : String} (hd : d ≠ "") {r : Nat} (h : p.byName.lookup d = some r) :
    p.current r = true ∧ (p.heap r).held = false := by
  obtain ⟨hdom, ho⟩ := hi.name d r hd h
  refine ⟨(p.current_iff r).mpr ho, ?_⟩
  rw [Record.held, hdom]
  simpa using hd

theorem lower_ne (s : Store) {domain : String} (h : domain ≠ "") : s.casing.lower domain ≠ "" :=
  fun he => h ((s.casing.lower_eq_empty domain).mp he)

theorem create_queried (s : Store) (f : Family) (domain : String) (tick : Nat) :
    s.Queried (domain ≠ "") (fun g r => g = f ∧ s.named f domain = some r) (s.create f domain tick).1 := by
  unfold create
  split
  · exact .keep s _ _
  next p hp =>
    split
    next r hr =>
      exact .setPool hp (.touch r _ ⟨rfl, by simp [named, hp, hr]⟩ fun hd hi => named_current hi (s.lower_ne hd) hr) _
    · exact .keep s _ _

theorem allocate_queried (s : Store) (f : Family) (domain : String) (tick generation : Nat) :
    s.Queried (domain ≠ "") (fun g r => g = f ∧ s.named f domain = some r)
      (s.allocate f domain tick generation).1 := by
  unfold allocate
  split
  · exact .keep s _ _
  next p hp =>
    dsimp only
    split
    next r hr =>
      exact .setPool hp (.touch r _ ⟨rfl, by simp [named, hp, hr]⟩ fun hd hi => named_current hi (s.lower_ne hd) hr) _
    · by_cases hcl : s.closed = true
      · rw [if_pos hcl]
        exact .keep s _ _
      rw [if_neg hcl]
      have hcl' : s.closed = false := eq_false_iff.mpr hcl
      split
      · exact .keep s _ _
      split
      · exact .keep s _ _
      have hw := p.search_walk s.saved s.storageFailed p.net.usable
      split <;> rename_i he <;> rw [he] at hw
      · exact .setPool hp (.walk _ hcl' hw) s.uses
      · exact .setPool hp (.walk _ hcl' hw) s.uses
      · obtain ⟨t, hw, hm, hfree, rfl, rfl⟩ := hw
        exact .setPool hp (.assign t _ _ hcl' hw hm hfree s.lower_ne (s.casing.lower_lower domain)) _

theorem lookup_queried (s : Store) (a : Addr) (tick : Nat) :
    s.Queried True (fun g r => s.addressed a = some (g, r)) (s.lookup a tick).1 := by
  unfold lookup
  split
  · exact .keep s _ _
  next f p hf =>
    have hp := (poolOf_eq_some hf).1
    split
    · exact .keep s _ _
    next o ho =>
      split
      · exact .keep s _ _
      next r hr =>
        by_cases hh : (p.heap r).held = true
        · rw [if_pos hh]
          exact .keep s _ _
        · rw [if_neg hh]
          refine .setPool hp (.touch r _ (by simp [addressed, hf, ho, hr, hh]) fun _ hi => ?_) _
          refine ⟨?_, eq_false_iff.mpr hh⟩
          rw [Pool.current_iff, (hi.offset o r hr).1]
          exact hr

/-- Records have gone from the ranges, and nothing has come. -/
def Thins (s t : Store) : Prop := ∀ f, Option.Rel Pool.Thins (s.pool f) (t.pool f)

theorem Thins.indexed (h : s.Thins t) (hs : s.Indexed) : t.Indexed := by
  intro f q hq
  obtain ⟨p, hp, hr⟩ := rel_some_right (h f) hq
  exact ⟨hr.index (hs f p hp).1, by rw [hr.net]; exact (hs f p hp).2⟩

theorem thins_mapPools (s : Store) {g : Family → Pool → Pool} (hg : ∀ f p, s.pool f = some p → p.Thins (g f p)) :
    s.Thins (s.mapPools g) := by
  intro f
  simp only [mapPools]
  cases hp : s.pool f with
  | none => exact .none
  | some p => exact .some (hg f p hp)

theorem thins_refl (s : Store) : s.Thins s := by
  intro f
  cases s.pool f with
  | none => exact .none
  | some p => exact .some (.refl p)

theorem thins_expire (s : Store) (found : Family → List Removal) : s.Thins (s.expire found) := by
  refine s.thins_mapPools fun f p _ => ?_
  split
  · exact .same ⟨rfl, rfl, rfl, rfl, rfl, fun _ => rfl, fun _ => rfl⟩
  · exact foldl_keep (Pool.Thins p) (fun _ c _ hq => hq.release c) (.refl p)

theorem thins_makeRoom (s : Store) (f : Family) (visit : List Nat) (tick : Nat)
    (hv : ∀ p, s.pool f = some p → visit.Nodup) : s.Thins (s.makeRoom f visit tick) := by
  refine s.thins_mapPools fun g p hp => ?_
  split
  next hg => exact p.thins_oldest (hv p (hg.1 ▸ hp)) tick
  · exact .refl p

theorem thins_renew (s : Store) (generation : Nat) : s.Thins (s.renew generation) := by
  unfold renew
  split
  · exact s.thins_refl
  · exact s.thins_mapPools fun f p _ => .same p.sameIndex_resave

/-- The ranges a save leaves behind when it has collected its changes. -/
theorem Thins.plan (h : s.Thins t) (r : Request) (visit : Family → List Nat) (tick : Nat) :
    s.Thins (t.plan r visit tick).1 := by
  intro f
  have hf := h f
  simp only [Store.plan, map_map]
  cases hp : s.pool f <;> cases hq : t.pool f <;> rw [hp, hq] at hf <;> cases hf
  · exact .none
  next hf => exact .some (hf.andThen (Pool.sameIndex_snapshot _ _ _ _ _))

theorem thins_complete (s : Store) (plan : Plan) : s.Thins (s.complete plan) := by
  intro f
  simp only [complete]
  cases s.pool f with
  | none => exact .none
  | some p =>
    cases plan.pools f with
    | none => exact .some (.refl p)
    | some q => exact .some (p.thins_complete q)

theorem thins_abandon (s : Store) (plan : Plan) : s.Thins (s.abandon plan) := by
  intro f
  simp only [abandon]
  cases s.pool f with
  | none => exact .none
  | some p =>
    cases plan.pools f with
    | none => exact .some (.refl p)
    | some q => exact .some (p.thins_abandon _ q)

theorem Indexed.new (cfg : Config) (saved : Bool) (generation : Nat) :
    (new cfg saved generation).Indexed := by
  intro f p hp
  obtain ⟨n, hn, rfl⟩ := map_eq_some_iff.mp hp
  exact ⟨.new (cfg.usable f n hn), cfg.family f n hn⟩

/-- A row goes to the range that contains its address, at an offset of the ring. -/
theorem accepts_eq_some {row : Addr × String} {o : Nat} (h : s.accepts row = some (f, p, o)) :
    s.poolOf row.1 = some (f, p) ∧ row.2 ≠ "" ∧ p.net.offset row.1 = some o ∧ firstOffset ≤ o := by
  unfold accepts at h
  split at h
  · cases h
  next g q hq =>
    split at h
    · cases h
    next hd =>
      split at h
      · cases h
      next o' ho =>
        split at h
        · cases h
        next hlt =>
          cases h
          exact ⟨hq, hd, ho, Nat.le_of_not_lt hlt⟩

theorem setPool_eq_some {q : Pool} {g : Family} : (s.setPool f p).pool g = some q ↔
    g = f ∧ p = q ∨ g ≠ f ∧ s.pool g = some q := by
  by_cases h : g = f
  · subst h
    simp [setPool]
  · simp [setPool, h]

/-- The ranges while the saved rows are read. -/
def Loading (s : Store) : Prop := ∀ f p, s.pool f = some p → p.Loading ∧ p.net.family = f

theorem Loading.indexed (hs : s.Loading) : s.Indexed :=
  fun f p hp => ⟨(hs f p hp).1.index, (hs f p hp).2⟩

theorem Loading.loadRow (hs : s.Loading) (row : Addr × String) : (s.loadRow row).Loading := by
  unfold Store.loadRow
  split
  · exact hs
  next f p o ha =>
    obtain ⟨hf, hd, ho, hle⟩ := accepts_eq_some ha
    have hp := (poolOf_eq_some hf).1
    have hm : Ring.Mem firstOffset p.net.usable o :=
      ⟨hle, by rw [p.net.usable_add (hs f p hp).1.index.usable]; exact (p.net.offset_eq_some ho).1⟩
    have hg := (hs f p hp).1.give ⟨s.casing.lower row.2, o, 0, false, false⟩ hm
      (fun h => hd ((s.casing.lower_eq_empty row.2).mp h))
    intro g q hq
    rcases setPool_eq_some.mp hq with ⟨rfl, rfl⟩ | ⟨_, hq⟩
    · exact ⟨hg, (hs g p hp).2⟩
    · exact hs g q hq

theorem loading_rows (cfg : Config) (generation : Nat) (rows : List (Addr × String)) :
    (rows.foldl loadRow (new cfg true generation)).Loading := by
  refine foldl_keep Store.Loading (fun s row _ hs => hs.loadRow row) fun f p hp => ?_
  obtain ⟨hi, hf⟩ := Indexed.new cfg true generation f p hp
  obtain ⟨n, _, rfl⟩ := map_eq_some_iff.mp hp
  exact ⟨⟨hi, rfl, fun o r h => by cases h⟩, hf⟩

theorem Indexed.load (cfg : Config) (generation : Nat) (rows : List (Addr × String))
    (m : Option Metadata) (clean : Bool) : (load cfg generation rows m clean).Indexed := by
  intro f q hq
  obtain ⟨p, hp, rfl⟩ := map_eq_some_iff.mp hq
  obtain ⟨hl, hf⟩ := loading_rows cfg generation rows f p hp
  obtain ⟨hi, hnet, _⟩ := hl.reload _ clean
  exact ⟨hi, by rw [hnet]; exact hf⟩

end Store

variable {cfg : Config} {x : Sys}

theorem Opened.indexed (h : Opened cfg x) : x.store.Indexed := by
  obtain ⟨d, generation, rows, m, clean, rfl⟩ := h
  exact .load cfg generation rows m clean

theorem Started.indexed (h : Started cfg x) : x.store.Indexed := by
  rcases h with ⟨d, rfl⟩ | h
  · exact .new cfg false 0
  · exact h.indexed

namespace Sys

theorem visits_perm {x : Sys} {visit : Family → List Nat} (h : x.visits visit = true) {f : Family} {p : Pool}
    (hp : x.store.pool f = some p) : (visit f).Perm p.byOffset.keys := by
  simp only [visits, List.all_cons, List.all_nil, Bool.and_true, Bool.and_eq_true] at h
  cases f with
  | inet4 => rw [hp] at h; exact List.isPerm_iff.mp h.1
  | inet6 => rw [hp] at h; exact List.isPerm_iff.mp h.2

/-- The records a label uses in the state it is taken in. -/
def uses (x : Sys) : Label → Family → Nat → Prop
  | .create f domain _, g, r => g = f ∧ x.store.named f domain = some r
  | .allocate f domain _, g, r => g = f ∧ x.store.named f domain = some r
  | .lookup a _, g, r => x.store.addressed a = some (g, r)
  | _, _, _ => False

end Sys

/-- The label does not ask for the address of the root name. -/
def Label.named : Label → Prop
  | .create _ domain _ => domain ≠ ""
  | .allocate _ domain _ => domain ≠ ""
  | _ => True

instance (l : Label) : Decidable l.named :=
  match l with
  | .create _ domain _ => inferInstanceAs (Decidable (domain ≠ ""))
  | .allocate _ domain _ => inferInstanceAs (Decidable (domain ≠ ""))
  | .lookup .. | .sweepScan .. | .sweepApply | .makeRoom .. | .saveStart .. | .saveCollect .. | .saveWrite ..
  | .saveComplete | .resetStorage .. | .resetMemory | .close | .recreate => .isTrue trivial

/-- The labels of `Create` and `Lookup`. -/
def Label.query : Label → Prop
  | .create _ _ _ => True
  | .allocate _ _ _ => True
  | .lookup _ _ => True
  | _ => False

/-- What the steps can do, one constructor for each way a critical section can end. -/
inductive Sys.Move (x : Sys) : Label → Sys → Prop
  | query (l : Label) (s : Store) : l.query → x.store.Queried l.named (x.uses l) s → Move x l { x with store := s }
  | scan (visit : Family → List Nat) (tick : Nat) : x.visits visit = true →
      Move x (.sweepScan visit tick) { x with found := some (x.store.findExpired visit tick) }
  | sweep (found : Family → List Removal) : x.found = some found →
      Move x .sweepApply { x with store := x.store.expire found, found := none }
  | makeRoom (f : Family) (visit : Family → List Nat) (tick : Nat) : x.store.saved = false →
      x.visits visit = true →
      Move x (.makeRoom f visit tick) { x with store := x.store.makeRoom f (visit f) tick }
  | start (r : Request) : x.phase = .idle → (r.clean = true → x.store.closed = true) →
      Move x (.saveStart r) { x with phase := .started r x.disk.generation }
  | refuse (r : Request) (generation : Nat) (visit : Family → List Nat) (tick : Nat) :
      x.phase = .started r generation → Move x (.saveCollect visit tick) { x with phase := .idle }
  | spare (r : Request) (generation : Nat) (visit : Family → List Nat) (tick : Nat) :
      x.phase = .started r generation →
      Move x (.saveCollect visit tick) { x with store := x.store.renew generation, phase := .idle }
  | collect (r : Request) (generation : Nat) (visit : Family → List Nat) (tick : Nat) :
      x.phase = .started r generation → x.visits visit = true → (x.store.closed = true → r.clean = true) →
      Move x (.saveCollect visit tick)
        { x with
          store := ((x.store.renew generation).plan r visit tick).1
          phase := if ((x.store.renew generation).plan r visit tick).2.empty then .idle
            else .collected ((x.store.renew generation).plan r visit tick).2 }
  | fail (plan : Plan) : x.phase = .collected plan →
      Move x (.saveWrite false) { x with phase := .written plan false }
  | write (plan : Plan) : x.phase = .collected plan →
      Move x (.saveWrite true)
        { x with
          disk := x.disk.saveChanges plan.puts plan.deletes plan.metadata plan.request.clean
          phase := .written plan true }
  | complete (plan : Plan) : x.phase = .written plan true →
      Move x .saveComplete { x with store := x.store.complete plan, phase := .idle }
  | abandon (plan : Plan) : x.phase = .written plan false →
      Move x .saveComplete { x with store := x.store.abandon plan, phase := .idle }
  | resetUnsaved (ok : Bool) : x.phase = .idle → x.store.saved = false →
      Move x (.resetStorage ok) { x with phase := .resetting }
  | resetStorage : x.phase = .idle → x.store.saved = true →
      Move x (.resetStorage true) { x with disk := x.disk.reset, phase := .resetting }
  | resetFailed : x.phase = .idle → Move x (.resetStorage false) x
  | resetMemory : x.phase = .resetting →
      Move x .resetMemory { x with store := x.store.forgetAll, phase := .idle }
  | close : Move x .close { x with store := { x.store with closed := true } }
  | recreate : Move x .recreate { x with disk := x.disk.recreate }

variable {x x' : Sys} {l : Label}

theorem Sys.collect_move {r : Request} {generation : Nat} {visit : Family → List Nat} {tick : Nat}
    (hp : x.phase = .started r generation) (hv : x.visits visit = true) :
    x.Move (.saveCollect visit tick) (x.collect r generation visit tick) := by
  unfold Sys.collect
  split
  · exact .refuse r generation visit tick hp
  next hc =>
    dsimp only
    split
    · exact .spare r generation visit tick hp
    · refine .collect r generation visit tick hp hv ?_
      intro hcl
      simpa [hcl] using hc

theorem Sys.step_move (h : x.step l = some x') : x.Move l x' := by
  cases l with
  | create f domain tick =>
    cases h
    exact .query _ _ trivial (Store.create_queried x.store f domain tick)
  | allocate f domain tick =>
    have hq := Store.allocate_queried x.store f domain tick x.disk.generation
    simp only [Sys.step] at h
    split at h
    · cases h
    next s _ _ he =>
      cases h
      rw [he] at hq
      exact .query _ _ trivial hq
  | lookup a tick =>
    cases h
    exact .query _ _ trivial (Store.lookup_queried x.store a tick)
  | sweepScan visit tick =>
    obtain ⟨hv, h⟩ := ite_none_right_eq_some.mp h
    cases h
    rw [and_eq_true] at hv
    exact .scan visit tick hv.2
  | sweepApply =>
    obtain ⟨found, hf, rfl⟩ := map_eq_some_iff.mp h
    exact .sweep found hf
  | makeRoom f visit tick =>
    obtain ⟨hv, h⟩ := ite_none_right_eq_some.mp h
    cases h
    rw [and_eq_true, not_eq_true'] at hv
    exact .makeRoom f visit tick hv.1 hv.2
  | saveStart r =>
    simp only [Sys.step] at h
    split at h
    next hp =>
      obtain ⟨hs, h⟩ := ite_none_right_eq_some.mp h
      cases h
      refine .start r hp fun hc => ?_
      simp only [hc, Bool.not_true, Bool.false_or, Bool.and_eq_true] at hs
      exact hs.2
    · cases h
  | saveCollect visit tick =>
    simp only [Sys.step] at h
    split at h
    next hp =>
      obtain ⟨hv, h⟩ := ite_none_right_eq_some.mp h
      cases h
      exact collect_move hp hv
    · cases h
  | saveWrite ok =>
    simp only [Sys.step] at h
    split at h
    next plan hp =>
      cases ok with
      | false => cases h; exact .fail plan hp
      | true => cases h; exact .write plan hp
    · cases h
  | saveComplete =>
    simp only [Sys.step] at h
    split at h
    next plan ok hp =>
      cases ok with
      | false => cases h; exact .abandon plan hp
      | true => cases h; exact .complete plan hp
    · cases h
  | resetStorage ok =>
    simp only [Sys.step] at h
    split at h
    next hp =>
      cases hs : x.store.saved with
      | false => simp only [hs] at h; cases h; exact .resetUnsaved ok hp hs
      | true =>
        simp only [hs] at h
        cases ok with
        | false => cases h; exact .resetFailed hp
        | true => cases h; exact .resetStorage hp hs
    · cases h
  | resetMemory =>
    simp only [Sys.step] at h
    split at h
    next hp =>
      cases h
      exact .resetMemory hp
    · cases h
  | close => cases h; exact .close
  | recreate => cases h; exact .recreate

/-- Every step is a query, or forgets all records, or takes some of them out. -/
theorem Sys.Move.thins (hm : x.Move l x') :
    x.store.Queried l.named (x.uses l) x'.store ∨ x'.store = x.store.forgetAll ∨ x.store.Thins x'.store := by
  cases hm with
  | query l s _ hq => exact .inl hq
  | sweep found _ => exact .inr (.inr (x.store.thins_expire found))
  | makeRoom f visit tick _ hv =>
    exact .inr (.inr (x.store.thins_makeRoom f (visit f) tick fun p hp =>
      (visits_perm hv hp).nodup_iff.mpr p.byOffset.nodupKeys))
  | spare r generation => exact .inr (.inr (x.store.thins_renew generation))
  | collect r generation visit tick => exact .inr (.inr ((x.store.thins_renew generation).plan r visit tick))
  | complete plan => exact .inr (.inr (x.store.thins_complete plan))
  | abandon plan => exact .inr (.inr (x.store.thins_abandon plan))
  | resetMemory => exact .inr (.inl rfl)
  | close => exact .inr (.inr fun f => Store.thins_refl x.store f)
  | _ => exact .inr (.inr (Store.thins_refl x.store))

theorem Sys.Move.indexed (hm : x.Move l x') (hx : x.store.Indexed) :
    x'.store.Indexed := by
  rcases hm.thins with hq | hf | ht
  · exact hq.indexed hx
  · rw [hf]
    intro f q hq
    obtain ⟨p, hp, rfl⟩ := map_eq_some_iff.mp hq
    obtain ⟨hi, hfam⟩ := hx f p hp
    exact ⟨⟨hi.usable, hi.next, nofun, nofun⟩, hfam⟩
  · exact ht.indexed hx

end SingBox.FakeIP
