import SingBox.Lifecycle.Scope
import SingBox.Lib.Count
import Mathlib.Data.List.Nodup

/-!
# Every cleanup runs once

A cleanup is in the list of a scope, waits in a list that is being run, or has begun. The lists that
were taken are run from behind, and what a cleanup calls ends before it does. A cleanup that is added
to a scope behind its `Close` stays in the list; without such additions nothing is left in
the end.
-/
namespace SingBox.Lifecycle

open Lib List Current

variable {κ : Type}

def Call.stack : Call → List Frame
  | .working _ stack => stack
  | _ => []

def Current.ids : Current → List Nat
  | .idle => []
  | .leaf id | .locking id _ | .inside id => [id]

def Frame.waiting (f : Frame) : List Nat := f.rest.map (·.id)

abbrev Frame.running (f : Frame) : List Nat := f.current.ids

def Scope.ids (scope : Scope κ) : List Nat := scope.cleanups.map (·.id)

/-- The list of a scope is in the order of the numbers, and has the cleanups of its children. -/
structure Scope.Ok (scope : Scope κ) : Prop where
  sorted : scope.ids.Pairwise (· < ·)
  children : ∀ child ∈ scope.children, ⟨child.cleanup, some child.scope⟩ ∈ scope.cleanups
  apart : (scope.children.map (·.cleanup)).Nodup

theorem Scope.Ok.empty {scope : Scope κ} (hcleanups : scope.cleanups = []) (hchildren : scope.children = []) :
    scope.Ok := by
  refine ⟨?_, ?_, ?_⟩
  · rw [Scope.ids, hcleanups]
    exact List.Pairwise.nil
  · rw [hchildren]
    nofun
  · rw [hchildren]
    exact nodup_nil

/-- The cleanup is current and has not called `Close`. -/
def Current.Before (x : Nat) (current : Current) : Prop := current = .leaf x ∨ ∃ scope, current = .locking x scope

variable {x : Nat}

theorem Current.Before.mem {current : Current} (h : current.Before x) : x ∈ current.ids := by
  rcases h with rfl | ⟨_, rfl⟩
  · exact mem_cons_self
  · exact mem_cons_self

theorem Current.not_before_idle : ¬idle.Before x := by
  rintro (h | ⟨_, h⟩) <;> cases h

theorem Current.not_before_inside {y : Nat} : ¬(inside y).Before x := by
  rintro (h | ⟨_, h⟩) <;> cases h

/-- The lists that are being run. -/
abbrev lists (calls : List Call) : List Frame := calls.flatMap Call.stack

namespace State

/-- Where the cleanups are: in the lists of scopes, in those that are being run, or in the log. -/
structure Accounts (scopes : List (Scope κ)) (frames : List Frame) (next : Nat) (log : List Event)
    (taken : List Taken) : Prop where
  places : ∀ x, (scopes.flatMap Scope.ids).count x + (frames.flatMap Frame.waiting).count x + log.count (.began x) =
    if x < next then 1 else 0
  running : ∀ x, log.count (.began x) = log.count (.ended x) + (frames.flatMap Frame.running).count x
  recorded : ∀ x,
    (taken.flatMap Taken.cleanups).count x + (scopes.flatMap Scope.ids).count x ≤ if x < next then 1 else 0

/-- A list that is being run: what is before the current cleanup has ended. One that `Remove` runs is not
among the lists that were taken. A cleanup that has not called `Close` took none of them. -/
structure FrameOk (records : List Taken) (log : List Event) (f : Frame) : Prop where
  taken : ∀ k, f.record = some k → ∃ t done, records[k]? = some t ∧
    t.cleanups.reverse = done ++ f.current.ids ++ f.waiting ∧ ∀ y ∈ done, .ended y ∈ log
  apart : f.record = none → ∀ x ∈ f.waiting, x ∉ records.flatMap Taken.cleanups
  fresh : ∀ x, f.current.Before x → ∀ t ∈ records, t.caller ≠ some x

/-- Each list was taken by the cleanup that is current in the list below it. -/
def Chain (taken : List Taken) : List Frame → Prop
  | f :: g :: below => (∃ y k t, g.current = .inside y ∧ f.record = some k ∧ taken[k]? = some t ∧ t.caller = some y) ∧
    Chain taken (g :: below)
  | _ => True

structure Stacks (calls : List Call) (log : List Event) (taken : List Taken) : Prop where
  records : ∀ t ∈ taken, t.cleanups.Pairwise (· < ·)
  began : ∀ t ∈ taken, ∀ y, t.caller = some y → .began y ∈ log
  frame : ∀ f ∈ lists calls, FrameOk taken log f
  chain : ∀ call ∈ calls, Chain taken call.stack
  callers : ∀ t ∈ taken, ∀ t' ∈ taken, ∀ y, t.caller = some y → t'.caller = some y → t = t'
  active : ∀ (k : Nat) t, taken[k]? = some t →
    (∃ f ∈ lists calls, f.record = some k) ∨ ∀ z ∈ t.cleanups, .ended z ∈ log

variable (s : State κ)

/-- The cleanups that a `Close` took run one after the other, the last one first; and they run while the cleanup that
called it runs. -/
structure Ordered : Prop where
  reverse : ∀ t ∈ s.taken, ∀ x ∈ t.cleanups, ∀ y ∈ t.cleanups, x < y → .began x ∈ s.log →
    [.ended y, .began x].Sublist s.log
  begins : ∀ t ∈ s.taken, ∀ y, t.caller = some y → ∀ z ∈ t.cleanups, .began z ∈ s.log →
    [.began y, .began z].Sublist s.log
  ends : ∀ t ∈ s.taken, ∀ y, t.caller = some y → ∀ z ∈ t.cleanups, .ended y ∈ s.log →
    [.ended z, .ended y].Sublist s.log

structure Sound : Prop where
  scopes : ∀ scope ∈ s.scopes, scope.Ok
  accounts : Accounts s.scopes (lists s.calls) s.next s.log s.taken
  nesting : Stacks s.calls s.log s.taken
  ordered : s.Ordered

section
variable {s : State κ}

/-! ## Events -/

/-- What holds of the order in the log holds behind a new event, if `a` is there when `b` comes. -/
theorem sublist_snoc {l : List Event} {a b e : Event} (h : b ∈ l → [a, b].Sublist l) (hnew : b = e → a ∈ l)
    (hb : b ∈ l ++ [e]) : [a, b].Sublist (l ++ [e]) := by
  rcases mem_append.mp hb with hb | hb
  · exact (h hb).trans (sublist_append_left _ _)
  · cases mem_singleton.mp hb
    exact (singleton_sublist.mpr (hnew rfl)).append (Sublist.refl [b])

variable {x i j id : Nat} {f : Frame} {k closes : Option Nat} {rest : List Cleanup} {scope : Scope κ}
  {scopes : List (Scope κ)} {frames : List Frame} {next : Nat} {log : List Event} {taken taken' : List Taken}
  {calls : List Call} {events : List Event}

theorem Ordered.began (h : s.Ordered) (hs : Stacks s.calls s.log s.taken)
    (hx : ∀ t ∈ s.taken, x ∈ t.cleanups → ∀ y ∈ t.cleanups, x < y → .ended y ∈ s.log) :
    (s.record (.began x)).Ordered where
  reverse t ht a ha b hb hab := by
    refine sublist_snoc (h.reverse t ht a ha b hb hab) fun he => ?_
    cases he
    exact hx t ht ha b hb hab
  begins t ht y hy z hz := sublist_snoc (h.begins t ht y hy z hz) fun _ => hs.began t ht y hy
  ends t ht y hy z hz := sublist_snoc (h.ends t ht y hy z hz) nofun

theorem Ordered.ended (h : s.Ordered) (hx : ∀ t ∈ s.taken, t.caller = some x → ∀ z ∈ t.cleanups, .ended z ∈ s.log) :
    (s.record (.ended x)).Ordered where
  reverse t ht a ha b hb hab := sublist_snoc (h.reverse t ht a ha b hb hab) nofun
  begins t ht y hy z hz := sublist_snoc (h.begins t ht y hy z hz) nofun
  ends t ht y hy z hz := by
    refine sublist_snoc (h.ends t ht y hy z hz) fun he => ?_
    cases he
    exact hx t ht hy z hz

/-! ## Facts about the places -/

section
variable (h : Accounts scopes frames next log taken) (hs : scope ∈ scopes) (hx : x ∈ scope.ids)
include h hs hx

/-- A cleanup that somebody has is one of those that were added. -/
theorem Accounts.lt_next :
    x < next := by
  have hpos := count_pos_iff.mpr (mem_flatMap.mpr ⟨scope, hs, hx⟩)
  have hplaces := h.places x
  split at hplaces
  · assumption
  · omega

/-- What is in a list has not begun and is not in the lists that are being run. -/
theorem Accounts.not_mem :
    (frames.flatMap Frame.waiting).count x = 0 ∧ log.count (.began x) = 0 ∧
      (taken.flatMap Taken.cleanups).count x = 0 := by
  have hpos := count_pos_iff.mpr (mem_flatMap.mpr ⟨scope, hs, hx⟩)
  have hplaces := h.places x
  have hrecorded := h.recorded x
  rw [if_pos (h.lt_next hs hx)] at hplaces hrecorded
  omega

end

/-! ## Frames that stay -/

theorem FrameOk.append (h : FrameOk taken log f) : FrameOk taken (log ++ events) f where
  taken k hk := by
    obtain ⟨t, done, ht, hdone, hended⟩ := h.taken k hk
    exact ⟨t, done, ht, hdone, fun y hy => mem_append_left _ (hended y hy)⟩
  apart := h.apart
  fresh := h.fresh

theorem Chain.mono (htaken : ∀ (k : Nat) (t : Taken), taken[k]? = some t → taken'[k]? = some t)
    {stack : List Frame} (h : Chain taken stack) : Chain taken' stack := by
  induction stack with
  | nil => trivial
  | cons f stack ih =>
    cases stack with
    | nil => trivial
    | cons g below =>
      obtain ⟨⟨y, k, t, hg, hf, ht, hcaller⟩, hbelow⟩ := h
      exact ⟨⟨y, k, t, hg, hf, htaken k t ht, hcaller⟩, ih hbelow⟩

/-- The calls change, but not the lists they are in. -/
theorem Sound.quiet (h : s.Sound) (hframes : lists calls = lists s.calls)
    (hchain : ∀ call ∈ calls, Chain s.taken call.stack) : ({ s with calls } : State κ).Sound := by
  obtain ⟨hsc, ha, hs, ho⟩ := h
  rw [← hframes] at ha
  have hframe := hs.frame
  have hactive := hs.active
  rw [← hframes] at hframe hactive
  exact ⟨hsc, ha, ⟨hs.records, hs.began, hframe, hchain, hs.callers, hactive⟩, ⟨ho.reverse, ho.begins, ho.ends⟩⟩

/-! ## New cleanups -/

/-- A cleanup is added to the list of scope `i`, and maybe a scope for it. -/
theorem Sound.push (h : s.Sound) (scope' : Scope κ) (hi : s.scopes[i]? = some scope) (closes : Option Nat)
    (hcleanups : scope'.cleanups = scope.cleanups ++ [⟨s.next, closes⟩])
    (hchildren : scope'.children = scope.children ∨ ∃ component child, closes = some child ∧
      scope'.children = ⟨component, child, s.next⟩ :: scope.children)
    {extra : List (Scope κ)} (hextra : ∀ e ∈ extra, e.cleanups = [] ∧ e.children = []) :
    ({ s with scopes := s.scopes.set i scope' ++ extra, next := s.next + 1 } : State κ).Sound := by
  obtain ⟨hsc, ha, hs, ho⟩ := h
  have hmem : scope ∈ s.scopes := mem_of_getElem? hi
  have hids : scope'.ids = scope.ids ++ [s.next] := by rw [Scope.ids, hcleanups, map_append]; rfl
  have hnil : extra.flatMap Scope.ids = [] := by
    rw [flatMap_eq_nil_iff]
    intro e he
    rw [Scope.ids, (hextra e he).1, map_nil]
  have hlisted : ∀ x, ((s.scopes.set i scope' ++ extra).flatMap Scope.ids).count x =
      (s.scopes.flatMap Scope.ids).count x + if x = s.next then 1 else 0 := by
    intro x
    have hset := count_flatMap_set_add (f := Scope.ids) hi scope' x
    simp only [hids, count_append, count_singleton, beq_iff_eq, eq_comm (a := s.next)] at hset
    rw [flatMap_append, hnil, append_nil]
    omega
  have hold := hsc scope hmem
  refine ⟨forall_mem_append.mpr ⟨forall_mem_set hsc ⟨?_, fun child hchild => ?_, ?_⟩, fun e he => ?_⟩,
    ⟨fun x => ?_, ha.running, fun x => ?_⟩, ⟨hs.records, hs.began, hs.frame, hs.chain, hs.callers, hs.active⟩,
    ⟨ho.reverse, ho.begins, ho.ends⟩⟩
  · rw [hids, pairwise_append]
    refine ⟨hold.sorted, pairwise_singleton _ _, fun x hx y hy => ?_⟩
    rw [mem_singleton.mp hy]
    exact ha.lt_next hmem hx
  · rw [hcleanups]
    rcases hchildren with hc | ⟨component, c, rfl, hc⟩
    · rw [hc] at hchild
      exact mem_append_left _ (hold.children child hchild)
    · rw [hc] at hchild
      rcases mem_cons.mp hchild with rfl | hchild
      · exact mem_append_right _ mem_cons_self
      · exact mem_append_left _ (hold.children child hchild)
  · rcases hchildren with hc | ⟨component, c, _, hc⟩
    · rw [hc]
      exact hold.apart
    · rw [hc, map_cons, nodup_cons]
      refine ⟨fun hnext => ?_, hold.apart⟩
      obtain ⟨child, hchild, heq⟩ := mem_map.mp hnext
      have hin : s.next ∈ scope.ids := mem_map.mpr ⟨_, hold.children child hchild, heq⟩
      exact absurd (ha.lt_next hmem hin) (by omega)
  · exact .empty (hextra e he).1 (hextra e he).2
  · rw [hlisted]
    have := ha.places x
    dsimp only
    split at this <;> split <;> split <;> omega
  · rw [hlisted]
    have := ha.recorded x
    dsimp only
    split at this <;> split <;> split <;> omega

/-! ## A cleanup that is removed -/

theorem lists_snoc (calls : List Call) (call : Call) : lists (calls ++ [call]) = lists calls ++ call.stack := by
  simp [lists]

/-- The cleanup of a child goes from the list of scope `i` to a call of its own. -/
theorem Sound.take (h : s.Sound) {scope' : Scope κ} (hi : s.scopes[i]? = some scope) {child : Child κ}
    (hchild : child ∈ scope.children) (hcleanups : scope'.cleanups = scope.cleanups.filter (·.id ≠ child.cleanup))
    (hchildren : scope'.children.Sublist scope.children) (hothers : ∀ c ∈ scope'.children, c.cleanup ≠ child.cleanup) :
    ({ s with
      scopes := s.scopes.set i scope'
      calls := s.calls ++ [.working none [⟨none, .idle, [⟨child.cleanup, some child.scope⟩]⟩]] } : State κ).Sound := by
  obtain ⟨hsc, ha, hs, ho⟩ := h
  have hmem : scope ∈ s.scopes := mem_of_getElem? hi
  have hids : scope'.ids = scope.ids.filter (· ≠ child.cleanup) := by
    rw [Scope.ids, hcleanups, Scope.ids, filter_map]
    rfl
  have hin : child.cleanup ∈ scope.ids := mem_map.mpr ⟨_, (hsc scope hmem).children child hchild, rfl⟩
  obtain ⟨hwait, hbegan, hrec⟩ := ha.not_mem hmem hin
  have hcount := ha.places child.cleanup
  rw [if_pos (ha.lt_next hmem hin)] at hcount
  have hlisted : ∀ x, ((s.scopes.set i scope').flatMap Scope.ids).count x + (if x = child.cleanup then 1 else 0) =
      (s.scopes.flatMap Scope.ids).count x := by
    intro x
    have hset := count_flatMap_set_add (f := Scope.ids) hi scope' x
    rw [hids] at hset
    split
    next hx =>
      subst hx
      have hzero : (scope.ids.filter (· ≠ child.cleanup)).count child.cleanup = 0 :=
        count_eq_zero.mpr fun hf => by simp at hf
      have hpos := count_pos_iff.mpr hin
      omega
    next hx =>
      have : (scope.ids.filter (· ≠ child.cleanup)).count x = scope.ids.count x := count_filter (by simpa using hx)
      omega
  have hframes := lists_snoc s.calls (.working none [⟨none, .idle, [⟨child.cleanup, some child.scope⟩]⟩])
  refine ⟨forall_mem_set hsc ⟨?_, fun c hc => ?_, (hsc scope hmem).apart.sublist (hchildren.map _)⟩,
    ⟨fun x => ?_, fun x => ?_, fun x => ?_⟩, ⟨hs.records, hs.began, ?_, ?_, hs.callers, ?_⟩,
    ⟨ho.reverse, ho.begins, ho.ends⟩⟩
  · rw [hids]
    exact (hsc scope hmem).sorted.sublist filter_sublist
  · rw [hcleanups, mem_filter]
    exact ⟨(hsc scope hmem).children c (hchildren.subset hc), by simpa using hothers c hc⟩
  · have hplaces := ha.places x
    have := hlisted x
    rw [hframes, flatMap_append, count_append]
    change _ + (_ + [child.cleanup].count x) + _ = _
    rw [← hplaces, ← this]
    by_cases hx : x = child.cleanup
    · subst hx
      simp
      omega
    · simp [hx, Ne.symm hx]
  · rw [hframes, flatMap_append, count_append]
    exact ha.running x
  · have := ha.recorded x
    have := hlisted x
    dsimp only
    omega
  · rw [hframes]
    refine forall_mem_snoc hs.frame ⟨nofun, fun _ x hx => ?_, fun x hx => absurd hx not_before_idle⟩
    cases mem_singleton.mp hx
    exact count_eq_zero.mp hrec
  · exact forall_mem_snoc hs.chain trivial
  · rw [hframes]
    intro k t ht
    refine (hs.active k t ht).imp_left ?_
    rintro ⟨f, hf, hk⟩
    exact ⟨f, mem_append_left _ hf, hk⟩

/-! ## A list that is taken -/

/-- The frame is as before, but for a cleanup that now is inside a `Close`. -/
structure Continues (f g : Frame) : Prop where
  record : f.record = g.record
  ids : f.current.ids = g.current.ids
  waiting : f.waiting = g.waiting
  current : f.current = g.current ∨ ∃ y, f.current = .inside y

variable {t u : Taken} {g f' : Frame} {c : Call} {current : Current} {cleanup : Cleanup} {below : List Frame}

theorem Continues.before (h : Continues f g) (hx : f.current.Before x) : g.current.Before x := by
  rcases h.current with heq | ⟨y, heq⟩
  · rwa [heq] at hx
  · rw [heq] at hx
    exact absurd hx not_before_inside

/-- The frame of a list that is taken next. -/
abbrev opened (s : State κ) (scope : Scope κ) : Frame := ⟨some s.taken.length, .idle, scope.cleanups.reverse⟩

/-- What a `Close` of scope `i` does to the calls: the list `scope` has gets a frame of its own. -/
structure Takes (s : State κ) (scope : Scope κ) (caller : Option Nat) (calls : List Call) : Prop where
  waiting : ∀ x, ((lists calls).flatMap Frame.waiting).count x =
    ((lists s.calls).flatMap Frame.waiting).count x + scope.ids.count x
  running : ∀ x, ((lists calls).flatMap Frame.running).count x = ((lists s.calls).flatMap Frame.running).count x
  frame : ∀ f ∈ lists calls, f = s.opened scope ∨ ∃ g ∈ lists s.calls, Continues f g
  new : s.opened scope ∈ lists calls
  old : ∀ g ∈ lists s.calls, ∃ f ∈ lists calls, f.record = g.record
  chain : ∀ call ∈ calls, Chain (s.taken ++ [⟨caller, scope.ids⟩]) call.stack
  began : ∀ y, caller = some y → .began y ∈ s.log
  ended : ∀ y, caller = some y → .ended y ∉ s.log
  unique : ∀ y, caller = some y → ∀ t ∈ s.taken, t.caller ≠ some y
  fresh : ∀ y, caller = some y → ∀ f ∈ lists calls, ¬f.current.Before y

theorem taken_append (k : Nat) (t : Taken) (h : taken[k]? = some t) :
    (taken ++ [u])[k]? = some t := by
  rw [List.getElem?_append_left (lt_of_getElem? h), h]

theorem taken_last : (taken ++ [t])[taken.length]? = some t := getElem?_concat_length

theorem FrameOk.continues (h : FrameOk taken log g) (hfg : Continues f g) (hapart : ∀ x ∈ g.waiting, x ∉ u.cleanups)
    (hfresh : ∀ x, u.caller = some x → ¬f.current.Before x) :
    FrameOk (taken ++ [u]) log f where
  taken k hk := by
    rw [hfg.ids, hfg.waiting]
    obtain ⟨t, done, ht, hdone⟩ := h.taken k (hfg.record ▸ hk)
    exact ⟨t, done, taken_append k t ht, hdone⟩
  apart hnone x hx := by
    rw [hfg.waiting] at hx
    rw [flatMap_append, flatMap_singleton, mem_append, not_or]
    exact ⟨h.apart (hfg.record ▸ hnone) x hx, hapart x hx⟩
  fresh x hx := forall_mem_snoc (h.fresh x (hfg.before hx)) fun hcaller => hfresh x hcaller hx

theorem Sound.lock (h : s.Sound) (hi : s.scopes[i]? = some scope) {caller : Option Nat}
    (ht : s.Takes scope caller calls) :
    ({ s with
      scopes := s.scopes.set i { scope with closed := true, cleanups := [], children := [] }
      calls := calls
      taken := s.taken ++ [⟨caller, scope.ids⟩] } : State κ).Sound := by
  obtain ⟨hsc, ha, hs, ho⟩ := h
  have hmem : scope ∈ s.scopes := mem_of_getElem? hi
  have hlisted : ∀ x, ((s.scopes.set i { scope with closed := true, cleanups := [], children := [] }).flatMap
      Scope.ids).count x + scope.ids.count x = (s.scopes.flatMap Scope.ids).count x := fun x =>
    (count_flatMap_set_add (f := Scope.ids) hi _ x).trans (Nat.add_zero _)
  -- nothing in the list has begun
  have hbegan : ∀ x ∈ scope.ids, .began x ∉ s.log := fun x hx =>
    count_eq_zero.mp (ha.not_mem hmem hx).2.1
  have htaken : ∀ t ∈ s.taken ++ [⟨caller, scope.ids⟩], t ∈ s.taken ∨ t = ⟨caller, scope.ids⟩ := fun t ht =>
    (mem_append.mp ht).imp_right mem_singleton.mp
  refine ⟨forall_mem_set hsc (.empty rfl rfl), ⟨fun x => ?_, fun x => ?_, fun x => ?_⟩,
    ⟨?_, ?_, ?_, ht.chain, ?_, ?_⟩, ⟨?_, ?_, ?_⟩⟩
  · have := ha.places x
    have := hlisted x
    have := ht.waiting x
    dsimp only
    omega
  · rw [ht.running]
    exact ha.running x
  · have := ha.recorded x
    have := hlisted x
    rw [flatMap_append, flatMap_singleton, count_append]
    dsimp only
    omega
  · exact forall_mem_snoc hs.records (hsc scope hmem).sorted
  · exact forall_mem_snoc hs.began ht.began
  · intro f hf
    rcases ht.frame f hf with rfl | ⟨g, hg, hfg⟩
    · refine ⟨fun k hk => ⟨⟨caller, scope.ids⟩, [], ?_, ?_, nofun⟩, nofun, fun x hx => absurd hx not_before_idle⟩
      · cases hk
        exact taken_last
      · simp [Frame.waiting, ids, Scope.ids]
    · refine (hs.frame g hg).continues hfg (fun x hx hin => ?_) fun x hcaller => ht.fresh x hcaller f hf
      exact count_eq_zero.mp (ha.not_mem hmem hin).1 (mem_flatMap.mpr ⟨g, hg, hx⟩)
  · intro t hmemt t' hmemt' y hy hy'
    rcases htaken t hmemt with hmemt | rfl <;> rcases htaken t' hmemt' with hmemt' | rfl
    · exact hs.callers t hmemt t' hmemt' y hy hy'
    · exact absurd hy (ht.unique y hy' t hmemt)
    · exact absurd hy' (ht.unique y hy t' hmemt')
    · rfl
  · intro k t hk
    rcases of_getElem?_snoc hk with hk | ⟨rfl, _⟩
    · refine (hs.active k t hk).imp_left ?_
      rintro ⟨g, hg, hgk⟩
      obtain ⟨f, hf, hfg⟩ := ht.old g hg
      exact ⟨f, hf, hfg.trans hgk⟩
    · exact .inl ⟨_, ht.new, rfl⟩
  · exact forall_mem_snoc ho.reverse fun x hx _ _ _ hlog => absurd hlog (hbegan x hx)
  · exact forall_mem_snoc ho.begins fun _ _ z hz hlog => absurd hlog (hbegan z hz)
  · exact forall_mem_snoc ho.ends fun y hy _ _ hlog => absurd hlog (ht.ended y hy)

/-! ## The steps of a call -/

theorem count_lists_set (hj : s.calls[j]? = some c) (c' : Call) (g : Frame → List Nat) (x : Nat) :
    ((lists (s.calls.set j c')).flatMap g).count x + (c.stack.flatMap g).count x =
      ((lists s.calls).flatMap g).count x + (c'.stack.flatMap g).count x := by
  rw [flatMap_assoc, flatMap_assoc]
  exact count_flatMap_set_add hj c' x

/-- The event a step of a call adds to the log, and the calls behind it. -/
structure Moves (s : State κ) (events : List Event) (calls : List Call) : Prop where
  waiting : ∀ x, ((lists calls).flatMap Frame.waiting).count x + events.count (.began x) =
    ((lists s.calls).flatMap Frame.waiting).count x
  running : ∀ x, ((lists calls).flatMap Frame.running).count x + events.count (.ended x) =
    ((lists s.calls).flatMap Frame.running).count x + events.count (.began x)
  frame : ∀ f ∈ lists calls, FrameOk s.taken (s.log ++ events) f
  old : ∀ g ∈ lists s.calls, ∀ k, g.record = some k → (∃ f ∈ lists calls, f.record = some k) ∨
    ∀ t, s.taken[k]? = some t → ∀ z ∈ t.cleanups, .ended z ∈ s.log
  chain : ∀ call ∈ calls, Chain s.taken call.stack
  ordered : ({ s with log := s.log ++ events } : State κ).Ordered

theorem Sound.move (h : s.Sound) (hm : s.Moves events calls) :
    ({ s with log := s.log ++ events, calls := calls } : State κ).Sound := by
  obtain ⟨hsc, ha, hs, _⟩ := h
  refine ⟨hsc, ⟨fun x => ?_, fun x => ?_, ha.recorded⟩,
    ⟨hs.records, fun t ht y hy => ?_, hm.frame, hm.chain, hs.callers, fun k t hk => ?_⟩,
    ⟨hm.ordered.reverse, hm.ordered.begins, hm.ordered.ends⟩⟩
  · have := ha.places x
    have := hm.waiting x
    dsimp only
    rw [count_append]
    omega
  · have := ha.running x
    have := hm.running x
    dsimp only
    rw [count_append, count_append]
    omega
  · exact mem_append_left _ (hs.began t ht y hy)
  · have hlog : ∀ {z}, .ended z ∈ s.log → .ended z ∈ s.log ++ events := fun hz => mem_append_left _ hz
    rcases hs.active k t hk with ⟨g, hg, hgk⟩ | hall
    · exact (hm.old g hg k hgk).imp_right fun hall z hz => hlog (hall t hk z hz)
    · exact .inr fun z hz => hlog (hall z hz)

theorem Chain.replace (h : Chain taken (f :: below)) (hf : f'.record = f.record) : Chain taken (f' :: below) := by
  cases below with
  | nil => trivial
  | cons g below =>
    obtain ⟨⟨y, k, t, hg, hk, ht⟩, hbelow⟩ := h
    exact ⟨⟨y, k, t, hg, hf.trans hk, ht⟩, hbelow⟩

theorem Chain.tail (h : Chain taken (f :: below)) : Chain taken below := by
  cases below with
  | nil => trivial
  | cons g below => exact h.2

theorem Chain.suffix {dropped below : List Frame} (h : Chain taken (dropped ++ below)) : Chain taken below := by
  induction dropped with
  | nil => exact h
  | cons g dropped ih => exact ih h.tail

/-- The frames of the other calls, and those below the top. -/
theorem mem_lists (hj : s.calls[j]? = some c) (hf : f ∈ c.stack) : f ∈ lists s.calls :=
  mem_flatMap.mpr ⟨c, mem_of_getElem? hj, hf⟩

theorem FrameOk.finished (h : FrameOk taken log f) (hidle : f.current = .idle) (hrest : f.rest = []) {k : Nat}
    (hk : f.record = some k) (ht : taken[k]? = some t) : ∀ z ∈ t.cleanups, .ended z ∈ log := by
  obtain ⟨t', done, ht', hdone, hended⟩ := h.taken k hk
  rw [ht] at ht'
  cases ht'
  rw [hidle, Frame.waiting, hrest] at hdone
  simp only [ids, map_nil, append_nil] at hdone
  intro z hz
  exact hended z (hdone ▸ mem_reverse.mpr hz)

theorem FrameOk.ended (h : FrameOk taken log ⟨k, current, rest⟩) (hx : current.ids = [x]) :
    FrameOk taken (log ++ [.ended x]) ⟨k, .idle, rest⟩ where
  taken k' hk := by
    obtain ⟨t, done, ht, hdone, hended⟩ := h.taken k' hk
    refine ⟨t, done ++ [x], ht, ?_, fun y hy => ?_⟩
    · rw [hdone, hx]
      simp [Frame.waiting, ids]
    · rcases mem_append.mp hy with hy | hy
      · exact mem_append_left _ (hended y hy)
      · rw [mem_singleton.mp hy]
        exact mem_append_right _ mem_cons_self
  apart hk x hx := h.apart hk x hx
  fresh x hx := absurd hx not_before_idle

/-- The top of a stack goes on, where frames above it that have come to their end are left. -/
theorem Moves.top (h : s.Sound) (dropped : List Frame)
    (hj : s.calls[j]? = some (.working closes (dropped ++ f :: below)))
    (hdropped : ∀ g ∈ dropped, g.current = .idle ∧ g.rest = []) (hrecord : f'.record = f.record)
    (hwaiting : ∀ x, f'.waiting.count x + events.count (.began x) = f.waiting.count x)
    (hids : ∀ x, f'.current.ids.count x + events.count (.ended x) = f.current.ids.count x + events.count (.began x))
    (hframe : FrameOk s.taken (s.log ++ events) f') (hordered : ({ s with log := s.log ++ events } : State κ).Ordered) :
    s.Moves events (s.calls.set j (.working closes (f' :: below))) := by
  have hset := fun g => count_lists_set hj (.working closes (f' :: below)) g
  have hmem : ∀ g ∈ lists (s.calls.set j (.working closes (f' :: below))), g = f' ∨ g ∈ lists s.calls := by
    intro g hg
    rcases mem_flatMap_set hg with hg | hg
    · rcases mem_cons.mp hg with hg | hg
      · exact .inl hg
      · exact .inr (mem_lists hj (mem_append_right _ (mem_cons_of_mem f hg)))
    · exact .inr hg
  have hstack : ∀ g ∈ f' :: below, g ∈ lists (s.calls.set j (.working closes (f' :: below))) := fun g hg =>
    mem_flatMap.mpr ⟨.working closes (f' :: below), mem_set (lt_of_getElem? hj) _, hg⟩
  have hzero : ∀ (g : Frame → List Nat), (∀ e ∈ dropped, g e = []) → ∀ x, (dropped.flatMap g).count x = 0 := by
    intro g hg x
    rw [flatMap_eq_nil_iff.mpr hg]
    rfl
  refine ⟨fun x => ?_, fun x => ?_, fun g hg => ?_, fun g hg k hk => ?_, ?_, hordered⟩
  · have := hset Frame.waiting x
    have := hwaiting x
    have := hzero Frame.waiting (fun e he => by rw [Frame.waiting, (hdropped e he).2, map_nil]) x
    simp only [Call.stack, flatMap_append, flatMap_cons, count_append] at *
    omega
  · have := hset Frame.running x
    have := hids x
    have := hzero Frame.running (fun e he => by rw [Frame.running, (hdropped e he).1]; rfl) x
    simp only [Call.stack, flatMap_append, flatMap_cons, count_append, Frame.running] at *
    omega
  · rcases hmem g hg with rfl | hg
    · exact hframe
    · exact (h.nesting.frame g hg).append
  · rcases mem_flatMap_set_of_mem hj (.working closes (f' :: below)) hg with hg' | hg'
    · rcases mem_append.mp hg' with hg' | hg'
      · exact .inr fun t ht => (h.nesting.frame g hg).finished (hdropped g hg').1 (hdropped g hg').2 hk ht
      · left
        rcases mem_cons.mp hg' with rfl | hg'
        · exact ⟨f', hstack f' mem_cons_self, hrecord.trans hk⟩
        · exact ⟨g, hstack g (mem_cons_of_mem f' hg'), hk⟩
    · exact .inl ⟨g, hg', hk⟩
  · exact forall_mem_set h.nesting.chain ((h.nesting.chain _ (mem_of_getElem? hj)).suffix.replace hrecord)

theorem Accounts.began_le_one (h : Accounts scopes frames next log taken) (x : Nat) : log.count (.began x) ≤ 1 := by
  have := h.places x
  split at this <;> omega

section
variable (h : s.Sound)
include h

/-- A cleanup that waits in a list has not begun. -/
theorem Sound.not_began (hf : f ∈ lists s.calls) (hx : x ∈ f.waiting) : .began x ∉ s.log := by
  have hpos := count_pos_iff.mpr (mem_flatMap.mpr ⟨f, hf, hx⟩)
  have := h.accounts.places x
  refine count_eq_zero.mp ?_
  split at this <;> omega

/-- When a cleanup of a list begins, those behind it in the list have ended. -/
theorem Sound.ended_of_next (hf : ⟨k, .idle, cleanup :: rest⟩ ∈ lists s.calls) (ht : t ∈ s.taken)
    (hx : cleanup.id ∈ t.cleanups) {y : Nat} (hy : y ∈ t.cleanups) (hlt : cleanup.id < y) : .ended y ∈ s.log := by
  have hok := h.nesting.frame _ hf
  cases k with
  | none =>
    refine absurd (mem_flatMap.mpr ⟨t, ht, hx⟩) (hok.apart rfl cleanup.id ?_)
    exact mem_cons_self
  | some k =>
    obtain ⟨t', done, ht', hdone, hended⟩ := hok.taken k rfl
    have hmem : cleanup.id ∈ t'.cleanups := by
      rw [← mem_reverse, hdone]
      simp [Frame.waiting]
    have hone : (s.taken.flatMap Taken.cleanups).count cleanup.id ≤ 1 := by
      have := h.accounts.recorded cleanup.id
      split at this <;> omega
    obtain rfl := eq_of_count_flatMap_le_one hone ht (mem_of_getElem? ht') hx hmem
    have hsorted := pairwise_reverse.mpr (h.nesting.records t ht)
    rw [← mem_reverse, hdone] at hy
    rw [hdone] at hsorted
    simp only [ids, append_nil, Frame.waiting, map_cons] at hy hsorted
    rcases mem_append.mp hy with hy | hy
    · exact hended y hy
    · exfalso
      rcases mem_cons.mp hy with rfl | hy
      · omega
      · have := (pairwise_cons.mp (pairwise_append.mp hsorted).2.1).1 y hy
        omega

/-- The current cleanup of a list that is not locked yet has called nothing. -/
theorem Sound.began (hj : s.calls[j]? = some (.working closes (⟨k, .idle, cleanup :: rest⟩ :: below)))
    (hids : current.ids = [cleanup.id]) :
    ((s.record (.began cleanup.id)).setStack j closes (⟨k, current, rest⟩ :: below)).Sound := by
  have hf : ⟨k, .idle, cleanup :: rest⟩ ∈ lists s.calls := mem_lists hj mem_cons_self
  have hwait : cleanup.id ∈ Frame.waiting ⟨k, .idle, cleanup :: rest⟩ := mem_cons_self
  refine h.move (Moves.top h [] hj nofun rfl (fun x => ?_) (fun x => ?_) ⟨fun k' hk => ?_, fun hk x hx => ?_,
    fun x hx t ht hcaller => ?_⟩ ?_)
  · simp [Frame.waiting, count_cons]
  · rw [hids]
    simp [ids, count_singleton]
  · obtain ⟨t, done, ht, hdone, hended⟩ := (h.nesting.frame _ hf).taken k' hk
    refine ⟨t, done, ht, ?_, fun y hy => mem_append_left _ (hended y hy)⟩
    rw [hdone, hids]
    simp [Frame.waiting, ids]
  · exact (h.nesting.frame _ hf).apart hk x (mem_cons_of_mem _ hx)
  · have hbegan := h.nesting.began t ht x hcaller
    have hxid : x ∈ [cleanup.id] := hids ▸ hx.mem
    exact h.not_began hf (mem_singleton.mp hxid ▸ hwait) hbegan
  · exact h.ordered.began h.nesting fun t ht hx y hy hlt => h.ended_of_next hf ht hx hy hlt

theorem Sound.endLeaf (hj : s.calls[j]? = some (.working closes (⟨k, .leaf id, rest⟩ :: below))) :
    ((s.record (.ended id)).setStack j closes (⟨k, .idle, rest⟩ :: below)).Sound := by
  have hf : ⟨k, .leaf id, rest⟩ ∈ lists s.calls := mem_lists hj mem_cons_self
  refine h.move (Moves.top h [] hj nofun rfl (fun x => ?_) (fun x => ?_)
    ((h.nesting.frame _ hf).ended rfl) ?_)
  · simp [Frame.waiting]
  · simp [ids, count_singleton]
  · exact h.ordered.ended fun t ht hcaller => absurd hcaller ((h.nesting.frame _ hf).fresh id (.inl rfl) t ht)

/-- A `Close` returns to the cleanup that called it, which ends. -/
theorem Sound.pop {k' : Option Nat}
    (hj : s.calls[j]? = some (.working closes (⟨k', .idle, []⟩ :: ⟨k, .inside id, rest⟩ :: below))) :
    ((s.record (.ended id)).setStack j closes (⟨k, .idle, rest⟩ :: below)).Sound := by
  have htop : ⟨k', .idle, []⟩ ∈ lists s.calls := mem_lists hj mem_cons_self
  have hf : ⟨k, .inside id, rest⟩ ∈ lists s.calls := mem_lists hj (mem_cons_of_mem _ mem_cons_self)
  refine h.move (Moves.top h [⟨k', .idle, []⟩] hj ?_ rfl (fun x => ?_) (fun x => ?_)
    ((h.nesting.frame _ hf).ended rfl) ?_)
  · intro g hg
    rw [mem_singleton.mp hg]
    exact ⟨rfl, rfl⟩
  · simp [Frame.waiting]
  · simp [ids, count_singleton]
  · refine h.ordered.ended fun t ht hcaller => ?_
    obtain ⟨⟨y, i, t', hy, hi, ht', hcaller'⟩, _⟩ := h.nesting.chain _ (mem_of_getElem? hj)
    cases hy
    obtain rfl := h.nesting.callers t ht t' (mem_of_getElem? ht') id hcaller hcaller'
    exact (h.nesting.frame _ htop).finished rfl rfl hi ht'

theorem Sound.returned (hj : s.calls[j]? = some (.working closes [⟨k, .idle, []⟩])) :
    ({ s with calls := s.calls.set j (.ended closes) } : State κ).Sound := by
  have hset := fun g => count_lists_set hj (.ended closes) g
  have hf : ⟨k, .idle, []⟩ ∈ lists s.calls := mem_lists hj mem_cons_self
  have hmem : ∀ g ∈ lists (s.calls.set j (.ended closes)), g ∈ lists s.calls := fun g hg =>
    (mem_flatMap_set hg).resolve_left nofun
  have hm : s.Moves [] (s.calls.set j (.ended closes)) := by
    refine ⟨fun x => ?_, fun x => ?_, fun g hg => (h.nesting.frame g (hmem g hg)).append,
      fun g hg k' hk => ?_, ?_, ?_⟩
    · exact hset Frame.waiting x
    · exact hset Frame.running x
    · rcases mem_flatMap_set_of_mem hj (.ended closes) hg with hg' | hg'
      · rw [mem_singleton.mp hg'] at hk
        exact .inr fun t ht => (h.nesting.frame _ hf).finished rfl rfl hk ht
      · exact .inl ⟨g, hg', hk⟩
    · exact forall_mem_set h.nesting.chain trivial
    · rw [append_nil]
      exact h.ordered
  have := h.move hm
  rw [append_nil] at this
  exact this

end

theorem Continues.refl (f : Frame) : Continues f f := ⟨rfl, rfl, rfl, .inl rfl⟩

theorem waiting_reverse (k : Option Nat) (current : Current) (scope : Scope κ) (x : Nat) :
    (Frame.waiting ⟨k, current, scope.cleanups.reverse⟩).count x = scope.ids.count x := by
  rw [Frame.waiting, map_reverse, count_reverse]
  rfl

theorem Takes.close (h : s.Sound) (i : Nat) (scope : Scope κ) :
    s.Takes scope none (s.calls ++ [.working (some i) [s.opened scope]]) := by
  have hframes := lists_snoc s.calls (.working (some i) [s.opened scope])
  refine ⟨fun x => ?_, fun x => ?_, fun f hf => ?_, ?_, fun g hg => ?_, ?_, nofun, nofun, nofun, nofun⟩
  · rw [hframes, flatMap_append, count_append, Call.stack, flatMap_singleton, waiting_reverse]
  · rw [hframes, flatMap_append, count_append]
    rfl
  · rw [hframes] at hf
    rcases mem_append.mp hf with hf | hf
    · exact .inr ⟨f, hf, .refl f⟩
    · exact .inl (mem_singleton.mp hf)
  · rw [hframes]
    exact mem_append_right _ mem_cons_self
  · rw [hframes]
    exact ⟨g, mem_append_left _ hg, rfl⟩
  · exact forall_mem_snoc (fun call hcall => (h.nesting.chain call hcall).mono taken_append) trivial

theorem Sound.running_le_one (h : s.Sound) (x : Nat) : ((lists s.calls).flatMap Frame.running).count x ≤ 1 := by
  have := h.accounts.running x
  have := h.accounts.began_le_one x
  omega

theorem Sound.of_running (h : s.Sound) (hx : x ∈ (lists s.calls).flatMap Frame.running) :
    .began x ∈ s.log ∧ .ended x ∉ s.log := by
  have hpos := count_pos_iff.mpr hx
  have hcount := h.accounts.running x
  have hle := h.accounts.began_le_one x
  refine ⟨count_pos_iff.mp (by omega), count_eq_zero.mp (by omega)⟩

/-- `Close` of a scope, called by the cleanup of a child. -/
theorem Takes.nested (h : s.Sound) {c : Nat}
    (hj : s.calls[j]? = some (.working closes (⟨k, .locking id c, rest⟩ :: below))) (scope : Scope κ) :
    s.Takes scope (some id) (s.calls.set j (.working closes (s.opened scope :: ⟨k, .inside id, rest⟩ :: below))) := by
  set stack := s.opened scope :: ⟨k, .inside id, rest⟩ :: below with hstacked
  have hset := fun g => count_lists_set hj (.working closes stack) g
  have hf : ⟨k, .locking id c, rest⟩ ∈ lists s.calls := mem_lists hj mem_cons_self
  have hrun : id ∈ (lists s.calls).flatMap Frame.running := mem_flatMap.mpr ⟨_, hf, mem_cons_self⟩
  have hstack : ∀ g ∈ stack, g ∈ lists (s.calls.set j (.working closes stack)) :=
    fun g hg => mem_flatMap.mpr ⟨_, mem_set (lt_of_getElem? hj) _, hg⟩
  have hrunning : ∀ x, ((lists (s.calls.set j (.working closes stack))).flatMap Frame.running).count x =
      ((lists s.calls).flatMap Frame.running).count x := by
    intro x
    have := hset Frame.running x
    simp only [Call.stack, hstacked, flatMap_cons, count_append, Frame.running, Current.ids,
      count_nil] at this ⊢
    omega
  refine ⟨fun x => ?_, hrunning, fun f hf' => ?_, hstack _ mem_cons_self, fun g hg => ?_, ?_, ?_, ?_,
    ?_, ?_⟩
  · have := hset Frame.waiting x
    have hsame : Frame.waiting ⟨k, .inside id, rest⟩ = Frame.waiting ⟨k, .locking id c, rest⟩ := rfl
    simp only [Call.stack, hstacked, flatMap_cons, count_append, waiting_reverse, hsame] at this ⊢
    omega
  · rcases mem_flatMap_set hf' with hf' | hf'
    · rcases mem_cons.mp hf' with hf' | hf'
      · exact .inl hf'
      · rcases mem_cons.mp hf' with rfl | hf'
        · exact .inr ⟨_, hf, rfl, rfl, rfl, .inr ⟨id, rfl⟩⟩
        · exact .inr ⟨f, mem_lists hj (mem_cons_of_mem _ hf'), .refl f⟩
    · exact .inr ⟨f, hf', .refl f⟩
  · rcases mem_flatMap_set_of_mem hj _ hg with hg' | hg'
    · rcases mem_cons.mp hg' with rfl | hg'
      · exact ⟨_, hstack _ (mem_cons_of_mem _ mem_cons_self), rfl⟩
      · exact ⟨g, hstack g (mem_cons_of_mem _ (mem_cons_of_mem _ hg')), rfl⟩
    · exact ⟨g, hg', rfl⟩
  · refine forall_mem_set (fun call hcall => (h.nesting.chain call hcall).mono taken_append) ?_
    have hchain : Chain s.taken (⟨k, .locking id c, rest⟩ :: below) := h.nesting.chain _ (mem_of_getElem? hj)
    have hinside : Chain s.taken (⟨k, .inside id, rest⟩ :: below) := hchain.replace rfl
    exact ⟨⟨id, s.taken.length, ⟨some id, scope.ids⟩, rfl, rfl, taken_last, rfl⟩, hinside.mono taken_append⟩
  · intro y hy
    cases hy
    exact (h.of_running hrun).1
  · intro y hy
    cases hy
    exact (h.of_running hrun).2
  · intro y hy
    cases hy
    exact (h.nesting.frame _ hf).fresh id (.inr ⟨c, rfl⟩)
  · intro y hy f hf' hx
    cases hy
    -- the frame that is inside the cleanup and this one would both have it
    have hin := hstack ⟨k, .inside id, rest⟩ (mem_cons_of_mem _ mem_cons_self)
    obtain rfl := eq_of_count_flatMap_le_one (hrunning id ▸ h.running_le_one id) hf' hin hx.mem mem_cons_self
    exact not_before_inside hx

theorem Sound.append_quiet (h : s.Sound) {call : Call} (hcall : call.stack = []) :
    ({ s with calls := s.calls ++ [call] } : State κ).Sound := by
  refine h.quiet ?_ fun c hc => ?_
  · rw [lists_snoc, hcall, append_nil]
  · refine forall_mem_snoc h.nesting.chain ?_ c hc
    rw [hcall]
    trivial

variable {s' : State κ}

section
variable (h : s.Sound)
include h

variable {component : κ}

theorem Sound.start [DecidableEq κ] (hs : s.start i component = some s') :
    s'.Sound := by
  unfold State.start at hs
  split at hs
  · cases hs
  next scope hi =>
    split at hs
    · cases hs
      exact h.append_quiet rfl
    split at hs
    · cases hs
      exact h.append_quiet rfl
    · cases hs
      refine Sound.append_quiet (h.push _ hi (some s.scopes.length) rfl (.inr ⟨component, _, rfl, rfl⟩) ?_) rfl
      intro e he
      rw [mem_singleton.mp he]
      exact ⟨rfl, rfl⟩

theorem Sound.add (hs : s.add i = some s') : s'.Sound := by
  unfold State.add at hs
  split at hs
  · cases hs
  next scope hi =>
    split at hs
    · cases hs
      have := h.push { scope with cleanups := scope.cleanups ++ [⟨s.next, none⟩] } hi none rfl (.inl rfl)
        (nofun : ∀ e ∈ ([] : List (Scope κ)), _)
      rw [append_nil] at this
      exact this
    · cases hs

theorem Sound.finish (hs : s.finish i = some s') : s'.Sound := by
  unfold State.finish at hs
  split at hs
  next hi =>
    cases hs
    refine h.quiet ?_ fun c hc => ?_
    · exact flatMap_set_eq hi rfl
    · rcases mem_or_eq_of_mem_set hc with hc | rfl
      · exact h.nesting.chain c hc
      · trivial
  · cases hs

theorem Sound.remove [DecidableEq κ] (hs : s.remove i component = some s') :
    s'.Sound := by
  unfold State.remove at hs
  split at hs
  · cases hs
  next scope hi =>
    split at hs
    · cases hs
      exact h.append_quiet rfl
    next child hfind =>
      cases hs
      have hmem := mem_of_find?_eq_some hfind
      refine h.take hi hmem rfl filter_sublist fun c hc heq => ?_
      obtain ⟨hc, hne⟩ := mem_filter.mp hc
      have hsame : c = child := inj_on_of_nodup_map (h.scopes scope (mem_of_getElem? hi)).apart hc hmem heq
      have := List.find?_some hfind
      simp_all

theorem Sound.close (hs : s.close i = some s') : s'.Sound := by
  unfold State.close State.lock at hs
  cases hi : s.scopes[i]? with
  | none =>
    rw [hi] at hs
    cases hs
  | some scope =>
    simp only [hi] at hs
    cases hs
    exact h.lock hi (.close h i scope)

theorem Sound.proceed (hs : s.proceed i = some s') : s'.Sound := by
  unfold State.proceed at hs
  split at hs
  next closes k cleanup rest below hi =>
    cases hs
    refine h.began hi ?_
    cases cleanup.closes <;> rfl
  next hi =>
    cases hs
    exact h.endLeaf hi
  next closes k id c rest below hi =>
    unfold State.lock at hs
    cases hc : s.scopes[c]? with
    | none =>
      rw [hc] at hs
      cases hs
    | some scope =>
      simp only [hc] at hs
      cases hs
      exact h.lock hc (.nested h hi scope)
  next hi =>
    cases hs
    exact h.pop hi
  next hi =>
    cases hs
    exact h.returned hi
  · cases hs

theorem Sound.step [DecidableEq κ] {label : Label κ} (hs : s.step label = some s') : s'.Sound := by
  cases label with
  | start i component => exact h.start hs
  | add i => exact h.add hs
  | finish i => exact h.finish hs
  | remove i component => exact h.remove hs
  | close i => exact h.close hs
  | proceed i => exact h.proceed hs

end

theorem sound_initial : (initial : State κ).Sound := by
  refine ⟨fun scope hscope => ?_, ⟨fun x => rfl, fun x => rfl, fun x => Nat.zero_le _⟩,
    ⟨nofun, nofun, nofun, nofun, nofun, nofun⟩, ⟨nofun, nofun, nofun⟩⟩
  rw [mem_singleton.mp hscope]
  exact .empty rfl rfl

end
end State

end SingBox.Lifecycle
