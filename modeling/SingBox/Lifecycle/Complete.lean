import SingBox.Lifecycle.Cleanups

/-!
# Nothing is left

Every scope but the root is closed by a cleanup of its parent. Where no cleanup is added to a scope that
is closed, a closed scope has no cleanups; so when the root is closed and no call is under way, every scope
is closed, and every cleanup has run.
-/
namespace SingBox.Lifecycle

open Lib List

variable {κ : Type}

/-- The frame has still to close scope `c`. -/
def Frame.Closes (c : Nat) (f : Frame) : Prop :=
  (∃ x ∈ f.rest, x.closes = some c) ∨ ∃ id, f.current = .locking id c

/-- A cleanup that closes scope `c` is in the list of its parent, or about to run. -/
def Scheduled (scopes : List (Scope κ)) (calls : List Call) (c : Nat) : Prop :=
  (∃ (p : Nat) (scope : Scope κ), p < c ∧ scopes[p]? = some scope ∧ ∃ x ∈ scope.cleanups, x.closes = some c) ∨
    ∃ f ∈ lists calls, f.Closes c

/-- The scope that the call closes, or has closed. -/
def Call.target : Call → Option Nat
  | .working closes _ => closes
  | .ended closes => closes
  | .starting _ => none

structure Tidy (scopes : List (Scope κ)) (calls : List Call) : Prop where
  closed : ∀ scope ∈ scopes, scope.closed = true → scope.cleanups = [] ∧ scope.children = []
  scheduled : ∀ (c : Nat) (scope : Scope κ), scopes[c]? = some scope → c ≠ 0 →
    scope.closed = true ∨ Scheduled scopes calls c
  target : ∀ call ∈ calls, ∀ i, call.target = some i → ∃ scope, scopes[i]? = some scope ∧ scope.closed = true

section
variable {scopes : List (Scope κ)} {calls calls' : List Call}

/-- The scopes stay, and whatever is about to close a scope still is. -/
theorem Tidy.go (h : Tidy scopes calls)
    (hframes : ∀ f ∈ lists calls, ∀ c, f.Closes c → ∃ g ∈ lists calls', g.Closes c)
    (htarget : ∀ call ∈ calls', ∀ i, call.target = some i → ∃ call' ∈ calls, call'.target = some i) :
    Tidy scopes calls' where
  closed := h.closed
  scheduled c scope hc hne := by
    refine (h.scheduled c scope hc hne).imp_right ?_
    rintro (hlist | ⟨f, hf, hcloses⟩)
    · exact .inl hlist
    · exact .inr (hframes f hf c hcloses)
  target call hcall i hi := by
    obtain ⟨call', hcall', hi'⟩ := htarget call hcall i hi
    exact h.target call' hcall' i hi'

theorem mem_lists_snoc {f : Frame} (hf : f ∈ lists calls) (call : Call) : f ∈ lists (calls ++ [call]) := by
  rw [State.lists_snoc]
  exact mem_append_left _ hf

theorem Tidy.append (h : Tidy scopes calls) {call : Call} (hcall : call.target = none) :
    Tidy scopes (calls ++ [call]) := by
  refine h.go (fun f hf c hc => ⟨f, mem_lists_snoc hf _, hc⟩) (fun c hc i hi => ?_)
  rcases mem_append.mp hc with hc | hc
  · exact ⟨c, hc, hi⟩
  · rw [mem_singleton.mp hc, hcall] at hi
    cases hi

/-- A step of a call that keeps what is still to be closed. -/
theorem Tidy.set (h : Tidy scopes calls) {j : Nat} {call : Call} (call' : Call) (hj : calls[j]? = some call)
    (htarget : call'.target = call.target ∨ call'.target = none)
    (hstack : ∀ f ∈ call.stack, ∀ c, f.Closes c → ∃ g ∈ call'.stack, g.Closes c) : Tidy scopes (calls.set j call') := by
  refine h.go (fun f hf c hc => ?_) (fun c hc i hi => ?_)
  · rcases mem_flatMap_set_of_mem hj call' hf with hf | hf
    · obtain ⟨g, hg, hgc⟩ := hstack f hf c hc
      exact ⟨g, mem_flatMap.mpr ⟨call', mem_set (lt_of_getElem? hj) _, hg⟩, hgc⟩
    · exact ⟨f, hf, hc⟩
  · rcases mem_or_eq_of_mem_set hc with hc | rfl
    · exact ⟨c, hc, hi⟩
    · rcases htarget with heq | heq
      · exact ⟨call, mem_of_getElem? hj, heq ▸ hi⟩
      · rw [heq] at hi
        cases hi

variable {i : Nat} {scope scope' : Scope κ}

/-- Scope `i`, which is not closed, gets more cleanups, and maybe a child. -/
theorem Tidy.push (h : Tidy scopes calls) (scope' : Scope κ) (hi : scopes[i]? = some scope)
    (hopen : scope'.closed = false)
    (hclosed : scope.closed = false) (hlist : scope.cleanups ⊆ scope'.cleanups) {extra : List (Scope κ)}
    (hextra : ∀ e ∈ extra, e.closed = false)
    (hnew : ∀ c, scopes.length ≤ c → c < scopes.length + extra.length → ∃ x ∈ scope'.cleanups, x.closes = some c) :
    Tidy (scopes.set i scope' ++ extra) calls := by
  have hlt : i < scopes.length := lt_of_getElem? hi
  have hget : ∀ p, p < scopes.length →
      (scopes.set i scope' ++ extra)[p]? = if i = p then some scope' else scopes[p]? := by
    intro p hp
    rw [List.getElem?_append_left (by simpa using hp), List.getElem?_set, if_pos hlt]
  -- what was in a list still is
  have hkeep : ∀ c, Scheduled scopes calls c → Scheduled (scopes.set i scope' ++ extra) calls c := by
    rintro c (⟨p, e, hp, he, x, hx, hxc⟩ | hframe)
    · have hpl := lt_of_getElem? he
      by_cases hip : i = p
      · subst hip
        rw [hi] at he
        cases he
        exact .inl ⟨i, scope', hp, by simp [hget i hpl], x, hlist hx, hxc⟩
      · exact .inl ⟨p, e, hp, by simp [hget p hpl, hip, he], x, hx, hxc⟩
    · exact .inr hframe
  refine ⟨fun e he hce => ?_, fun c e hc hne => ?_, fun call hcall j hj => ?_⟩
  · rcases mem_append.mp he with he | he
    · rcases mem_or_eq_of_mem_set he with he | rfl
      · exact h.closed e he hce
      · rw [hopen] at hce
        cases hce
    · rw [hextra e he] at hce
      cases hce
  · by_cases hcl : c < scopes.length
    · rw [hget c hcl] at hc
      split at hc
      next hic =>
        subst hic
        refine .inr (hkeep i ?_)
        exact (h.scheduled i scope hi hne).resolve_left (by simp [hclosed])
      · exact (h.scheduled c e hc hne).imp_right (hkeep c)
    · have hbound := lt_of_getElem? hc
      simp only [length_append, length_set] at hbound
      obtain ⟨x, hx, hxc⟩ := hnew c (by omega) hbound
      exact .inr (.inl ⟨i, scope', by omega, by simp [hget i hlt], x, hx, hxc⟩)
  · obtain ⟨e, he, hce⟩ := h.target call hcall j hj
    have hjl := lt_of_getElem? he
    refine ⟨e, ?_, hce⟩
    rw [hget j hjl]
    split
    next hij =>
      subst hij
      rw [hi] at he
      cases he
      rw [hclosed] at hce
      cases hce
    · exact he

theorem target_set (hi : scopes[i]? = some scope) (hclosed : scope.closed = true → scope'.closed = true) {j : Nat}
    (h : ∃ e, scopes[j]? = some e ∧ e.closed = true) : ∃ e, (scopes.set i scope')[j]? = some e ∧ e.closed = true := by
  obtain ⟨e, he, hce⟩ := h
  rw [List.getElem?_set, if_pos (lt_of_getElem? hi)]
  by_cases hij : i = j
  · subst hij
    rw [hi] at he
    cases he
    exact ⟨scope', by simp, hclosed hce⟩
  · exact ⟨e, by simp [hij, he], hce⟩

/-- What is scheduled stays so if the list of scope `i` goes to frames. -/
theorem Scheduled.set (hi : scopes[i]? = some scope) {c : Nat} (h : Scheduled scopes calls c)
    (hlist : ∀ x ∈ scope.cleanups, x.closes = some c → x ∈ scope'.cleanups ∨ ∃ f ∈ lists calls', f.Closes c)
    (hframes : ∀ f ∈ lists calls, f.Closes c → ∃ g ∈ lists calls', g.Closes c) :
    Scheduled (scopes.set i scope') calls' c := by
  have hlt : i < scopes.length := lt_of_getElem? hi
  rcases h with ⟨p, e, hp, he, x, hx, hxc⟩ | ⟨f, hf, hfc⟩
  · by_cases hip : i = p
    · subst hip
      rw [hi] at he
      cases he
      rcases hlist x hx hxc with hx | hframe
      · exact .inl ⟨i, scope', hp, by simp [hlt], x, hx, hxc⟩
      · exact .inr hframe
    · exact .inl ⟨p, e, hp, by rw [List.getElem?_set_ne hip, he], x, hx, hxc⟩
  · exact .inr (hframes f hf hfc)

theorem Tidy.take {s : State κ} (h : Tidy s.scopes s.calls) (hs : s.Sound) (hi : s.scopes[i]? = some scope)
    {child : Child κ}
    (hchild : child ∈ scope.children) (hclosed : scope'.closed = scope.closed)
    (hcleanups : scope'.cleanups = scope.cleanups.filter (·.id ≠ child.cleanup)) :
    Tidy (s.scopes.set i scope') (s.calls ++ [.working none [⟨none, .idle, [⟨child.cleanup, some child.scope⟩]⟩]]) := by
  have hmem : scope ∈ s.scopes := mem_of_getElem? hi
  have hopen : scope.closed = false := by
    cases hc : scope.closed with
    | false => rfl
    | true =>
      rw [(h.closed scope hmem hc).2] at hchild
      cases hchild
  have hkeep : ∀ c, Scheduled s.scopes s.calls c → Scheduled (s.scopes.set i scope')
      (s.calls ++ [.working none [⟨none, .idle, [⟨child.cleanup, some child.scope⟩]⟩]]) c := by
    intro c hc
    refine hc.set hi (fun x hx hxc => ?_) (fun f hf hfc => ⟨f, mem_lists_snoc hf _, hfc⟩)
    by_cases hid : x.id = child.cleanup
    · -- the number tells the cleanup
      have hnodup : (scope.cleanups.map (·.id)).Nodup := (hs.scopes scope hmem).sorted.imp fun hlt => Nat.ne_of_lt hlt
      obtain rfl := inj_on_of_nodup_map hnodup hx ((hs.scopes scope hmem).children child hchild) hid
      right
      refine ⟨⟨none, .idle, [⟨child.cleanup, some child.scope⟩]⟩, ?_, .inl ⟨_, mem_cons_self, hxc⟩⟩
      rw [State.lists_snoc]
      exact mem_append_right _ mem_cons_self
    · left
      rw [hcleanups, mem_filter]
      exact ⟨hx, by simpa using hid⟩
  refine ⟨fun e he hce => ?_, fun c e hc hne => ?_, fun call hcall j hj => ?_⟩
  · rcases mem_or_eq_of_mem_set he with he | rfl
    · exact h.closed e he hce
    · rw [hclosed, hopen] at hce
      cases hce
  · rcases of_getElem?_set hc with ⟨rfl, _⟩ | ⟨_, hc⟩
    · exact .inr (hkeep i ((h.scheduled i scope hi hne).resolve_left (by simp [hopen])))
    · exact (h.scheduled c e hc hne).imp_right (hkeep c)
  · rcases mem_append.mp hcall with hcall | hcall
    · exact target_set hi (fun hc => hclosed.trans hc) (h.target call hcall j hj)
    · rw [mem_singleton.mp hcall] at hj
      cases hj

theorem Tidy.lock (h : Tidy scopes calls) (hi : scopes[i]? = some scope) {k : Nat}
    (hnew : ⟨some k, .idle, scope.cleanups.reverse⟩ ∈ lists calls')
    (hframes : ∀ f ∈ lists calls, ∀ c, f.Closes c → c ≠ i → ∃ g ∈ lists calls', g.Closes c)
    (htarget : ∀ call ∈ calls', ∀ j, call.target = some j → j = i ∨ ∃ call' ∈ calls, call'.target = some j) :
    Tidy (scopes.set i { scope with closed := true, cleanups := [], children := [] }) calls' := by
  refine ⟨fun e he hce => ?_, fun c e hc hne => ?_, fun call hcall j hj => ?_⟩
  · rcases mem_or_eq_of_mem_set he with he | rfl
    · exact h.closed e he hce
    · exact ⟨rfl, rfl⟩
  · rcases of_getElem?_set hc with ⟨_, rfl⟩ | ⟨hic, hc⟩
    · exact .inl rfl
    · refine (h.scheduled c e hc hne).imp_right fun hsch => ?_
      exact hsch.set hi (fun x hx hxc => .inr ⟨_, hnew, .inl ⟨x, mem_reverse.mpr hx, hxc⟩⟩)
        fun f hf hfc => hframes f hf c hfc (Ne.symm hic)
  · rcases htarget call hcall j hj with rfl | ⟨call', hcall', hj'⟩
    · exact ⟨_, List.getElem?_set_self (lt_of_getElem? hi), rfl⟩
    · exact target_set hi (fun _ => rfl) (h.target call' hcall' j hj')

end

/-- The frame at the top of a stack goes on, and the frames below it stay. -/
theorem closes_top {f f' : Frame} {below : List Frame} (h : ∀ c, f.Closes c → f'.Closes c) :
    ∀ g ∈ f :: below, ∀ c, g.Closes c → ∃ g' ∈ f' :: below, g'.Closes c := by
  intro g hg c hc
  rcases mem_cons.mp hg with rfl | hg
  · exact ⟨f', mem_cons_self, h c hc⟩
  · exact ⟨g, mem_cons_of_mem f' hg, hc⟩

/-- The scope is not closed. -/
def State.isOpen (s : State κ) (i : Nat) : Prop := ∀ scope ∈ s.scopes[i]?, scope.closed = false

/-- A step that adds to no scope that is closed. -/
def State.Allowed (s : State κ) : Label κ → Prop
  | .add i => s.isOpen i
  | _ => True

instance (s : State κ) (i : Nat) : Decidable (s.isOpen i) := by
  unfold State.isOpen
  infer_instance

instance (s : State κ) (label : Label κ) : Decidable (s.Allowed label) := by
  cases label <;> unfold State.Allowed <;> infer_instance

section
variable {s s' : State κ} {i : Nat} (h : Tidy s.scopes s.calls)
include h

theorem Tidy.start [DecidableEq κ] {component : κ} (hs : s.start i component = some s') : Tidy s'.scopes s'.calls := by
  unfold State.start at hs
  split at hs
  · cases hs
  next scope hi =>
    split at hs
    · cases hs
      exact h.append rfl
    next hdone =>
      have hopen : scope.closed = false := by
        cases hlen : s.scopes.length with
        | zero =>
          have := lt_of_getElem? hi
          omega
        | succ n =>
          rw [hlen, State.done, hi] at hdone
          simp only [Bool.not_eq_true, Bool.or_eq_false_iff] at hdone
          exact hdone.1
      split at hs
      · cases hs
        exact h.append rfl
      cases hs
      have hcall : (Call.starting s.scopes.length).target = none := rfl
      refine Tidy.append (h.push { scope with
        cleanups := scope.cleanups ++ [⟨s.next, some s.scopes.length⟩]
        children := ⟨component, s.scopes.length, s.next⟩ :: scope.children } hi hopen hopen
          (subset_append_left _ _) ?_ fun c hle hlt => ?_) hcall
      · intro e he
        rw [mem_singleton.mp he]
      · have hc : c = s.scopes.length := by
          simp at hlt
          omega
        exact ⟨_, mem_append_right _ mem_cons_self, by rw [hc]⟩

theorem Tidy.add (hopen : s.isOpen i) (hs : s.add i = some s') : Tidy s'.scopes s'.calls := by
  unfold State.add at hs
  split at hs
  · cases hs
  next scope hi =>
    split at hs
    · cases hs
      have hlist : scope.cleanups ⊆ scope.cleanups ++ [⟨s.next, none⟩] := subset_append_left _ _
      have hnone : ∀ e ∈ ([] : List (Scope κ)), e.closed = false := nofun
      have hpush := h.push { scope with cleanups := scope.cleanups ++ [⟨s.next, none⟩] } hi (hopen scope hi)
        (hopen scope hi) hlist hnone fun c hle hlt => by simp at hlt; omega
      rw [append_nil] at hpush
      exact hpush
    · cases hs

theorem Tidy.finish (hs : s.finish i = some s') : Tidy s'.scopes s'.calls := by
  unfold State.finish at hs
  split at hs
  next hi =>
    cases hs
    exact h.set (.ended none) hi (.inr rfl) nofun
  · cases hs

theorem Tidy.remove [DecidableEq κ] (hsound : s.Sound) {component : κ} (hs : s.remove i component = some s') :
    Tidy s'.scopes s'.calls := by
  unfold State.remove at hs
  split at hs
  · cases hs
  next scope hi =>
    split at hs
    · cases hs
      exact h.append rfl
    next child hfind =>
      cases hs
      exact h.take hsound hi (mem_of_find?_eq_some hfind) rfl rfl

theorem Tidy.close (hs : s.close i = some s') : Tidy s'.scopes s'.calls := by
  unfold State.close State.lock at hs
  cases hi : s.scopes[i]? with
  | none =>
    rw [hi] at hs
    cases hs
  | some scope =>
    simp only [hi] at hs
    cases hs
    refine h.lock hi (k := s.taken.length) ?_ (fun f hf c hc _ => ⟨f, mem_lists_snoc hf _, hc⟩)
      fun call hcall j hj => ?_
    · rw [State.lists_snoc]
      exact mem_append_right _ mem_cons_self
    · rcases mem_append.mp hcall with hcall | hcall
      · exact .inr ⟨call, hcall, hj⟩
      · rw [mem_singleton.mp hcall] at hj
        exact .inl (Option.some.inj hj).symm

theorem Tidy.proceed (hs : s.proceed i = some s') : Tidy s'.scopes s'.calls := by
  unfold State.proceed at hs
  split at hs
  next closes k cleanup rest below hi =>
    cases hs
    refine h.set (.working closes (⟨k, _, rest⟩ :: below)) hi (.inl rfl) (closes_top fun c hc => ?_)
    rcases hc with ⟨x, hx, hxc⟩ | ⟨_, hc⟩
    · rcases mem_cons.mp hx with rfl | hx
      · exact .inr ⟨x.id, by simp [hxc]⟩
      · exact .inl ⟨x, hx, hxc⟩
    · cases hc
  next closes k id rest below hi =>
    cases hs
    refine h.set (.working closes (⟨k, .idle, rest⟩ :: below)) hi (.inl rfl) (closes_top fun c hc => ?_)
    rcases hc with hx | ⟨_, hc⟩
    · exact .inl hx
    · cases hc
  next closes k id c rest below hi =>
    unfold State.lock at hs
    cases hc : s.scopes[c]? with
    | none =>
      rw [hc] at hs
      cases hs
    | some scope =>
      simp only [hc] at hs
      cases hs
      have hlt := lt_of_getElem? hi
      refine h.lock hc (k := s.taken.length) ?_ (fun f hf c' hc' hne => ?_) fun call hcall j hj => ?_
      · exact mem_flatMap.mpr ⟨_, mem_set hlt _, mem_cons_self⟩
      · rcases mem_flatMap_set_of_mem hi (.working closes
          (⟨some s.taken.length, .idle, scope.cleanups.reverse⟩ :: ⟨k, .inside id, rest⟩ :: below)) hf with hf | hf
        · have htop : ∃ g ∈ ⟨k, .inside id, rest⟩ :: below, g.Closes c' := by
            rcases mem_cons.mp hf with rfl | hf
            · rcases hc' with hx | ⟨_, hc'⟩
              · exact ⟨_, mem_cons_self, .inl hx⟩
              · cases hc'
                exact absurd rfl hne
            · exact ⟨f, mem_cons_of_mem _ hf, hc'⟩
          obtain ⟨g, hg, hgc⟩ := htop
          exact ⟨g, mem_flatMap.mpr ⟨_, mem_set hlt _, mem_cons_of_mem _ hg⟩, hgc⟩
        · exact ⟨f, hf, hc'⟩
      · rcases mem_or_eq_of_mem_set hcall with hcall | rfl
        · exact .inr ⟨call, hcall, hj⟩
        · exact .inr ⟨_, mem_of_getElem? hi, hj⟩
  next closes k' k id rest below hi =>
    cases hs
    refine h.set (.working closes (⟨k, .idle, rest⟩ :: below)) hi (.inl rfl) fun g hg c hc => ?_
    rcases mem_cons.mp hg with rfl | hg
    · rcases hc with ⟨_, hx, _⟩ | ⟨_, hc⟩
      · cases hx
      · cases hc
    · refine closes_top (fun c hc => ?_) g hg c hc
      rcases hc with hx | ⟨_, hc⟩
      · exact .inl hx
      · cases hc
  next closes k hi =>
    cases hs
    refine h.set (.ended closes) hi (.inl rfl) fun g hg c hc => ?_
    rw [mem_singleton.mp hg] at hc
    rcases hc with ⟨_, hx, _⟩ | ⟨_, hc⟩
    · cases hx
    · cases hc
  · cases hs

theorem Tidy.step [DecidableEq κ] (hsound : s.Sound) {label : Label κ} (hallowed : s.Allowed label)
    (hs : s.step label = some s') : Tidy s'.scopes s'.calls := by
  cases label with
  | start i component => exact h.start hs
  | add i => exact h.add hallowed hs
  | finish i => exact h.finish hs
  | remove i component => exact h.remove hsound hs
  | close i => exact h.close hs
  | proceed i => exact h.proceed hs

end

namespace State

section
variable {s : State κ} {scope : Scope κ}

theorem tidy_initial : Tidy (initial : State κ).scopes [] := by
  refine ⟨fun e he hce => ?_, fun c e hc hne => ?_, nofun⟩
  · rw [mem_singleton.mp he] at hce
    cases hce
  · have := lt_of_getElem? hc
    simp [initial] at this
    omega

/-! ## The end -/

/-- `Close` of the root has returned, and no call is under way. -/
structure AtEnd (s : State κ) : Prop where
  returned : .ended (some 0) ∈ s.calls
  quiet : ∀ call ∈ s.calls, ∃ closes, call = .ended closes

theorem atEnd_of_calls {closes : List (Option Nat)} (hcalls : s.calls = closes.map .ended) (hroot : some 0 ∈ closes) :
    s.AtEnd := by
  constructor
  · rw [hcalls]
    exact mem_map.mpr ⟨_, hroot, rfl⟩
  · intro call hcall
    rw [hcalls] at hcall
    obtain ⟨c, -, rfl⟩ := mem_map.mp hcall
    exact ⟨c, rfl⟩

theorem AtEnd.frames (h : s.AtEnd) : lists s.calls = [] := by
  refine flatMap_eq_nil_iff.mpr fun call hcall => ?_
  obtain ⟨closes, rfl⟩ := h.quiet call hcall
  rfl

/-- Every scope is closed in the end, from the root on. -/
theorem AtEnd.closed (h : s.AtEnd) (ht : Tidy s.scopes s.calls) (c : Nat) (hc : s.scopes[c]? = some scope) :
    scope.closed = true := by
  induction c using Nat.strongRecOn generalizing scope with
  | ind c ih =>
    by_cases hzero : c = 0
    · obtain ⟨root, hroot, hclosed⟩ := ht.target _ h.returned 0 rfl
      rw [hzero, hroot] at hc
      cases hc
      exact hclosed
    · refine (ht.scheduled c scope hc hzero).resolve_right ?_
      rintro (⟨p, parent, hp, hparent, x, hx, _⟩ | ⟨f, hf, _⟩)
      · rw [(ht.closed parent (mem_of_getElem? hparent) (ih p hp hparent)).1] at hx
        cases hx
      · rw [h.frames] at hf
        cases hf

theorem AtEnd.ended (h : s.AtEnd) (hs : s.Sound) (ht : Tidy s.scopes s.calls) {x : Nat} (hx : x < s.next) :
    .ended x ∈ s.log := by
  have hlisted : s.scopes.flatMap Scope.ids = [] := by
    refine flatMap_eq_nil_iff.mpr fun scope hscope => ?_
    obtain ⟨c, hc⟩ := mem_iff_getElem?.mp hscope
    rw [Scope.ids, (ht.closed scope hscope (h.closed ht c hc)).1, map_nil]
  have hplaces := hs.accounts.places x
  have hrunning := hs.accounts.running x
  rw [if_pos hx, hlisted, h.frames] at hplaces
  rw [h.frames] at hrunning
  simp only [count_nil, flatMap_nil] at hplaces hrunning
  exact count_pos_iff.mp (by omega)

/-- No cleanup runs twice, and those a scope had at its `Close` run from behind, a child's in the place of the child;
and once the root is closed and all calls have ended, every cleanup has run. -/
structure CleanedUp (s : State κ) : Prop where
  once : ∀ x, s.log.count (.began x) ≤ 1
  ordered : s.Ordered
  complete : s.AtEnd → ∀ x < s.next, .ended x ∈ s.log

end

/-- In every run that adds to no scope behind its `Close`. -/
theorem cleanedUp_of_run [DecidableEq κ] {past : List (State κ × Label κ)} {s : State κ} (hrun : (machine κ).Run past s)
    (hal : System.Along Allowed past) : s.CleanedUp := by
  have hinv : s.Sound ∧ Tidy s.scopes s.calls := by
    refine hrun.invariant (I := fun s : State κ => s.Sound ∧ Tidy s.scopes s.calls) (fun s hs => ?_)
      (fun s s' label h hallowed hs => ?_) hal
    · cases hs
      exact ⟨sound_initial, tidy_initial⟩
    · exact ⟨h.1.step hs, h.2.step h.1 hallowed hs⟩
  exact ⟨hinv.1.accounts.began_le_one, hinv.1.ordered, fun hend x hx => hend.ended hinv.1 hinv.2 hx⟩

/-! ## Two runs -/

/-- A component adds a cleanup and a component under it another one, before the root is closed. -/
def orderly : List (Label Nat) :=
  [.start 0 1, .add 1, .start 1 2, .add 2, .add 1, .finish 1, .finish 0, .close 0] ++ List.replicate 13 (.proceed 2)

def orderlyEnd : State Nat := ((machine Nat).exec orderly .initial).getD .initial

theorem orderly_cleanedUp : orderlyEnd.AtEnd ∧ orderlyEnd.CleanedUp ∧
    orderlyEnd.log = [.began 0, .began 4, .ended 4, .began 2, .began 3, .ended 3, .ended 2, .began 1, .ended 1,
      .ended 0] := by
  have hrun : (machine Nat).Run ((machine Nat).trace orderly .initial []) orderlyEnd :=
    System.run_exec (.start _ rfl) rfl
  have hal : System.Along Allowed ((machine Nat).trace orderly .initial []) :=
    System.along_exec (by decide +kernel)
  have hcalls : orderlyEnd.calls = [none, none, some 0].map .ended := rfl
  exact ⟨atEnd_of_calls hcalls (by decide), cleanedUp_of_run hrun hal, rfl⟩

/-- The root is closed while a component runs, and the component adds a cleanup behind it. -/
def late : List (Label Nat) :=
  [.start 0 1, .close 0, .proceed 1, .proceed 1, .proceed 1, .proceed 1, .add 1, .finish 0]

def lateEnd : State Nat := ((machine Nat).exec late .initial).getD .initial

/-- The cleanup never runs. -/
theorem late_cleanup_lost : ∃ past s, (machine Nat).Run past s ∧ ¬s.CleanedUp := by
  refine ⟨_, lateEnd, System.run_exec (.start _ rfl) (rfl : (machine Nat).exec late .initial = some lateEnd),
    fun h => ?_⟩
  have hcalls : lateEnd.calls = [none, some 0].map .ended := rfl
  have hend : lateEnd.AtEnd := atEnd_of_calls hcalls (by decide)
  have hended := h.complete hend 1 (by decide +kernel)
  revert hended
  decide +kernel

/-- In every run, with additions behind a `Close` too, a cleanup that has not begun waits in one list, and those that
were taken run in order. -/
theorem waits_or_began [DecidableEq κ] {past : List (State κ × Label κ)} {s : State κ} (hrun : (machine κ).Run past s) :
    s.Ordered ∧ ∀ x < s.next, s.log.count (.ended x) ≤ s.log.count (.began x) ∧
      (s.scopes.flatMap Scope.ids ++ (lists s.calls).flatMap Frame.waiting).count x + s.log.count (.began x) = 1 := by
  have h : s.Sound := by
    refine hrun.always ?_ fun s s' label h hs => h.step hs
    rintro s rfl
    exact sound_initial
  refine ⟨h.ordered, fun x hx => ⟨?_, ?_⟩⟩
  · rw [h.accounts.running x]
    exact Nat.le_add_right _ _
  · rw [count_append, h.accounts.places x, if_pos hx]

/-- The cleanup that is lost is still in its list. -/
theorem waits_or_began_late :
    (lateEnd.scopes.flatMap Scope.ids ++ (lists lateEnd.calls).flatMap Frame.waiting).count 1 = 1 := by
  have hrun : (machine Nat).Run ((machine Nat).trace late .initial []) lateEnd := System.run_exec (.start _ rfl) rfl
  have h := ((waits_or_began hrun).2 1 (by decide +kernel)).2
  rwa [show lateEnd.log.count (.began 1) = 0 by decide +kernel] at h

end State
end SingBox.Lifecycle
