import SingBox.Lib.Transition
import SingBox.Lib.Count
import Mathlib.Order.BooleanAlgebra.Basic

/-!
# The keyed mutex

`Lock` of a free key makes an entry, and of another one waits on the condition of its entry. `Unlock` takes
the entry away, or wakes one of those that wait, which then has the key. What runs under the lock of the
map is one step.
-/
namespace SingBox.Common

open Lib List Function

variable {κ : Type} [DecidableEq κ]

/-- `klock`. Who waits on its condition is told by the calls; `ref` counts goroutines, which are fewer than `2 ^ 64`. -/
structure Klock where
  ref : Nat

/-- A call of `Lock` and the `Unlock` behind it. -/
inductive Call (κ : Type) where
  | idle (key : κ)
  /-- on the condition of the entry that the key has -/
  | waiting (key : κ)
  /-- on a condition that is in no entry any more -/
  | lost
  /-- signalled, with the lock of the map still to take -/
  | woken (key : κ)
  | holding (key : κ)
  | unlocked

structure Kmutex (κ : Type) where
  s : κ → Option Klock
  calls : List (Call κ)
  panicked : Bool

inductive Label where
  | lock (call : Nat)
  | resume (call : Nat)
  | unlock (call waiter : Nat)

namespace Call

def holds (key : κ) : Call κ → Bool
  | .holding k => k = key
  | _ => false

/-- The key is held, or was handed over. -/
def owns (key : κ) : Call κ → Bool
  | .woken k | .holding k => k = key
  | _ => false

def waits (key : κ) : Call κ → Bool
  | .waiting k => k = key
  | _ => false

/-- The entry of the key goes, with its condition. -/
def lose (key : κ) (call : Call κ) : Call κ := if call.waits key then .lost else call

/-- How many steps the call has to take. -/
def rank : Call κ → Nat
  | .idle _ => 4
  | .waiting _ => 3
  | .woken _ => 2
  | .holding _ => 1
  | .lost | .unlocked => 0

end Call

namespace Kmutex

variable (m : Kmutex κ)

def lock (i : Nat) : Option (Kmutex κ) :=
  match m.calls[i]? with
  | some (.idle key) =>
    match m.s key with
    | none => some { m with s := update m.s key (some ⟨1⟩), calls := m.calls.set i (.holding key) }
    | some kl => some { m with s := update m.s key (some ⟨kl.ref + 1⟩), calls := m.calls.set i (.waiting key) }
  | _ => none

/-- `Wait` returns, and `Lock` with it. -/
def resume (i : Nat) : Option (Kmutex κ) :=
  match m.calls[i]? with
  | some (.woken key) => some { m with calls := m.calls.set i (.holding key) }
  | _ => none

/-- `Signal` wakes one of those that wait on the condition, if there are any. -/
def signal (key : κ) (waiter : Nat) : Option (Kmutex κ) :=
  if m.calls.any (Call.waits key) then
    if (m.calls[waiter]?).any (Call.waits key) then some { m with calls := m.calls.set waiter (.woken key) } else none
  else some m

def unlock (i waiter : Nat) : Option (Kmutex κ) :=
  match m.calls[i]? with
  | some (.holding key) =>
    match m.s key with
    | none => some { m with panicked := true }
    | some kl =>
      if kl.ref = 0 then some { m with panicked := true }
      else
        let calls := m.calls.set i .unlocked
        if kl.ref - 1 = 0 then some { m with s := update m.s key none, calls := calls.map (Call.lose key) }
        else signal { m with s := update m.s key (some ⟨kl.ref - 1⟩), calls } key waiter
  | _ => none

def step : Label → Option (Kmutex κ)
  | .lock i => m.lock i
  | .resume i => m.resume i
  | .unlock i waiter => m.unlock i waiter

/-- `New`, and the calls that goroutines will make. -/
def new (keys : List κ) : Kmutex κ := ⟨fun _ => none, keys.map .idle, false⟩

end Kmutex

variable (κ) in
def machine : System (Kmutex κ) Label := ⟨fun m => ∃ keys, m = .new keys, Kmutex.step⟩

namespace Kmutex

open Call

variable {m m' : Kmutex κ} {key k : κ} {i : Nat} {entry : Option Klock} {calls : List (Call κ)} {a b : Call κ}

def rank (m : Kmutex κ) : Nat := (m.calls.map Call.rank).sum

/-- An entry has one owner, and counts it and those that wait. -/
def Counted (entry : Option Klock) (owners waiters : Nat) : Prop :=
  (owners = if entry.isSome then 1 else 0) ∧ (entry.map Klock.ref).getD 0 = owners + waiters

/-- The calls for every key that `p` allows are counted, and none is lost. -/
structure Sound (p : κ → Prop) (m : Kmutex κ) : Prop where
  counted : ∀ key, p key → Counted (m.s key) (m.calls.countP (owns key)) (m.calls.countP (waits key))
  kept : ∀ call ∈ m.calls, call ≠ .lost
  calm : m.panicked = false

/-- A call for a key takes a step, which no other key sees. -/
theorem Sound.put (h : m.Sound (· ≠ key)) (hi : m.calls[i]? = some a) (entry : Option Klock) {b : Call κ}
    (helse : ∀ k, k ≠ key → b.owns k = a.owns k ∧ b.waits k = a.waits k) (hb : b ≠ .lost) :
    Sound (· ≠ key) { m with s := update m.s key entry, calls := m.calls.set i b } := by
  refine ⟨fun k hk => ?_, forall_mem_set h.kept hb, h.calm⟩
  simp only [update_of_ne hk, countP_set_eq hi (helse k hk).1, countP_set_eq hi (helse k hk).2]
  exact h.counted k hk

theorem Sound.but (h : m.Sound ⊤) (key : κ) : m.Sound (· ≠ key) := ⟨fun k _ => h.counted k trivial, h.kept, h.calm⟩

theorem Sound.whole (h : m.Sound (· ≠ key))
    (hkey : Counted (m.s key) (m.calls.countP (owns key)) (m.calls.countP (waits key))) :
    m.Sound ⊤ := by
  refine ⟨fun k _ => ?_, h.kept, h.calm⟩
  by_cases hk : k = key
  · exact hk ▸ hkey
  · exact h.counted k hk

theorem Sound.take (h : m.Sound ⊤) (key : κ) (entry : Option Klock) (b : Call κ) (hi : m.calls[i]? = some a)
    (helse : ∀ k, k ≠ key → b.owns k = a.owns k ∧ b.waits k = a.waits k) (hb : b ≠ .lost) (hlt : b.rank < a.rank)
    (hcounted : ∀ owners waiters owners' waiters', Counted (m.s key) owners waiters →
      (owners' + if a.owns key then 1 else 0) = owners + (if b.owns key then 1 else 0) →
      (waiters' + if a.waits key then 1 else 0) = waiters + (if b.waits key then 1 else 0) →
      Counted entry owners' waiters') :
    Sound ⊤ { m with s := update m.s key entry, calls := m.calls.set i b } ∧
      rank { m with s := update m.s key entry, calls := m.calls.set i b } < m.rank := by
  have hrank := sum_map_set_add (f := Call.rank) hi b
  have hput := (h.but key).put hi entry helse hb
  refine ⟨hput.whole ?_, by simp only [rank]; omega⟩
  simp only [update_self]
  exact hcounted _ _ _ _ (h.counted key trivial) (countP_set_add hi b) (countP_set_add hi b)

theorem map_lose (h : calls.countP (waits key) = 0) : calls.map (lose key) = calls := by
  refine (map_congr_left fun call hcall => ?_).trans (map_id calls)
  exact if_neg (countP_eq_zero.mp h call hcall)

theorem of_waits (h : a.waits key = true) : a = .waiting key := by
  cases a with
  | waiting k => rw [of_decide_eq_true h]
  | _ => cases h

theorem Sound.lock (h : m.Sound ⊤) (hlock : m.lock i = some m') :
    m'.Sound ⊤ ∧ m'.rank < m.rank := by
  unfold Kmutex.lock at hlock
  split at hlock
  next key hi =>
    cases hs : m.s key <;> rw [hs] at hlock <;> obtain rfl := Option.some.inj hlock
    all_goals
      refine h.take _ _ _ hi (by simp +contextual [owns, waits, eq_comm]) (by simp) (by simp [Call.rank]) ?_
      intro owners waiters owners' waiters' hold hown hwait
      simp only [hs, Counted, owns, waits, Option.isSome_none, Option.isSome_some, Option.map_none, Option.map_some,
        Option.getD_none, Option.getD_some, decide_true, Bool.false_eq_true, if_true, if_false] at hold hown hwait ⊢
      omega
  · cases hlock

theorem Sound.resume (h : m.Sound ⊤) (hresume : m.resume i = some m') :
    m'.Sound ⊤ ∧ m'.rank < m.rank := by
  unfold Kmutex.resume at hresume
  split at hresume
  next key hi =>
    obtain rfl := Option.some.inj hresume
    have := h.take key (m.s key) (.holding key) hi (by simp [owns, waits]) (by simp) (by simp [Call.rank])
      (by simp +contextual [Counted, owns, waits])
    simpa using this
  · cases hresume

theorem Sound.unlock {waiter : Nat} (h : m.Sound ⊤) (hunlock : m.unlock i waiter = some m') :
    m'.Sound ⊤ ∧ m'.rank < m.rank := by
  unfold Kmutex.unlock at hunlock
  split at hunlock
  next key hi =>
    obtain ⟨howned, href⟩ := h.counted key trivial
    have hpos : 0 < m.calls.countP (owns key) := countP_pos_iff.mpr ⟨_, mem_of_getElem? hi, by simp [owns]⟩
    have hown := countP_set_add (p := owns key) hi .unlocked
    have hwait := countP_set_add (p := waits key) hi .unlocked
    cases hs : m.s key with
    | none =>
      simp only [hs, Option.isSome_none, Bool.false_eq_true, if_false] at howned
      omega
    | some kl =>
      simp only [hs, Option.isSome_some, if_true, Option.map_some, Option.getD_some] at howned href hunlock
      simp only [owns, waits, decide_true, Bool.false_eq_true, if_true, if_false] at hown hwait
      split at hunlock
      · omega
      split at hunlock
      · obtain rfl := Option.some.inj hunlock
        rw [map_lose (by omega)]
        exact h.take _ _ _ hi (by simp +contextual [owns, waits, eq_comm]) (by simp) (by simp [Call.rank])
          (by simp [Counted, hs, owns, waits]; omega)
      unfold signal at hunlock
      have hany : (m.calls.set i .unlocked).any (waits key) = true :=
        any_eq_true.mpr (countP_pos_iff.mp (by omega))
      simp only [hany, if_true] at hunlock
      split at hunlock
      next hw =>
        obtain rfl := Option.some.inj hunlock
        obtain ⟨call, hj, hcall⟩ := (Option.any_eq_true ..).mp hw
        obtain rfl := of_waits hcall
        have hput := (h.but key).put hi (some ⟨kl.ref - 1⟩)
          (b := .unlocked) (by simp +contextual [owns, waits, eq_comm]) (by simp)
        have hput' := hput.put hj (some ⟨kl.ref - 1⟩) (b := .woken key) (by simp +contextual [owns, waits, eq_comm])
          (by simp)
        have hown' := countP_set_add (p := owns key) hj (.woken key)
        have hwait' := countP_set_add (p := waits key) hj (.woken key)
        have hrank := sum_map_set_add (f := Call.rank) hi .unlocked
        have hrank' := sum_map_set_add (f := Call.rank) hj (.woken key)
        simp only [owns, waits, Call.rank, decide_true, Bool.false_eq_true, if_true, if_false,
          update_idem] at hown' hwait' hrank hrank' hput'
        refine ⟨hput'.whole ?_, ?_⟩
        · simp only [update_self, Counted, Option.isSome_some, if_true, Option.map_some, Option.getD_some]
          omega
        · simp only [rank]
          omega
      · cases hunlock
  · cases hunlock

theorem Sound.step {l : Label} (h : m.Sound ⊤) (hstep : m.step l = some m') :
    m'.Sound ⊤ ∧ m'.rank < m.rank := by
  cases l with
  | lock i => exact h.lock hstep
  | resume i => exact h.resume hstep
  | unlock i waiter => exact h.unlock hstep

theorem signal_some (m : Kmutex κ) (key : κ) : ∃ waiter m', m.signal key waiter = some m' := by
  by_cases hany : m.calls.any (waits key) = true
  · obtain ⟨call, hcall, hw⟩ := any_eq_true.mp hany
    obtain ⟨waiter, hj⟩ := mem_iff_getElem?.mp hcall
    exact ⟨waiter, by simp [signal, hany, hj, hw]⟩
  · exact ⟨0, by simp [signal, hany]⟩

theorem owner_step (hi : m.calls[i]? = some a) (ha : a.owns key = true) : ∃ l m', m.step l = some m' := by
  cases a with
  | woken k => exact ⟨.resume i, _, by rw [Kmutex.step, Kmutex.resume, hi]⟩
  | holding k =>
    obtain ⟨waiter, hsignal⟩ := signal_some
      { m with s := update m.s k (some ⟨((m.s k).map Klock.ref).getD 0 - 1⟩), calls := m.calls.set i .unlocked } k
    refine ⟨.unlock i waiter, ?_⟩
    cases hs : m.s k with
    | none => simp [Kmutex.step, Kmutex.unlock, hi, hs]
    | some kl =>
      simp only [hs, Option.map_some, Option.getD_some] at hsignal
      simp only [Kmutex.step, Kmutex.unlock, hi, hs]
      split_ifs
      exacts [⟨_, rfl⟩, ⟨_, rfl⟩, hsignal]
  | _ => cases ha

theorem Sound.next (h : m.Sound ⊤) :
    (∀ call ∈ m.calls, call = .unlocked) ∨ ∃ l m', m.step l = some m' := by
  refine or_iff_not_imp_left.mpr fun hall => ?_
  push Not at hall
  obtain ⟨call, hcall, hne⟩ := hall
  obtain ⟨i, hi⟩ := mem_iff_getElem?.mp hcall
  cases call with
  | idle key =>
    refine ⟨.lock i, ?_⟩
    cases hs : m.s key <;> simp [Kmutex.step, Kmutex.lock, hi, hs]
  | waiting key =>
    obtain ⟨howned, href⟩ := h.counted key trivial
    have hpos : 0 < m.calls.countP (waits key) := countP_pos_iff.mpr ⟨_, hcall, by simp [waits]⟩
    have howner : 0 < m.calls.countP (owns key) := by
      cases hs : m.s key <;> simp [hs] at howned href <;> omega
    obtain ⟨owner, hmem, howns⟩ := countP_pos_iff.mp howner
    obtain ⟨j, hj⟩ := mem_iff_getElem?.mp hmem
    exact owner_step hj howns
  | lost => exact absurd rfl (h.kept _ hcall)
  | woken key | holding key => exact owner_step hi (decide_eq_true (Eq.refl key))
  | unlocked => exact absurd rfl hne

theorem Sound.new (keys : List κ) : (new keys).Sound ⊤ := by
  refine ⟨fun key _ => ?_, by simp [Kmutex.new], rfl⟩
  simp [Kmutex.new, Counted, countP_map, Function.comp_def, owns, waits]

theorem Sound.run {past : List (Kmutex κ × Label)} (h : (machine κ).Run past m) : m.Sound ⊤ :=
  h.always (by rintro _ ⟨keys, rfl⟩; exact .new keys) fun s s' l hs hstep => (hs.step hstep).1

/-- A key is held by one call at most, its entry is there for the owner and counts those that wait, no `Unlock`
panics, and every call comes to return and to unlock. -/
theorem kmutex_excludes {past : List (Kmutex κ × Label)} (h : (machine κ).Run past m) :
    (∀ key, m.calls.countP (holds key) ≤ 1 ∧ ((m.s key).isSome ↔ ∃ call ∈ m.calls, call.owns key = true) ∧
      ∀ kl, m.s key = some kl → kl.ref = m.calls.countP (owns key) + m.calls.countP (waits key)) ∧
    m.panicked = false ∧ (machine κ).Inevitable (fun m => ∀ call ∈ m.calls, call = .unlocked) m := by
  have hsound := Sound.run h
  refine ⟨fun key => ?_, hsound.calm, ?_⟩
  · obtain ⟨howned, href⟩ := hsound.counted key trivial
    have hle : m.calls.countP (holds key) ≤ m.calls.countP (owns key) := by
      refine countP_mono_left fun call _ hholds => ?_
      cases call with
      | holding k => exact hholds
      | _ => cases hholds
    rw [← countP_pos_iff (p := owns key)]
    cases hs : m.s key with
    | none =>
      simp only [hs, Option.isSome_none, Bool.false_eq_true, if_false] at howned
      exact ⟨by omega, by simp [howned], by simp⟩
    | some kl =>
      simp only [hs, Option.isSome_some, if_true] at howned
      exact ⟨by omega, by simp [howned], fun kl' heq => by simpa [hs, Option.some.inj heq] using href⟩
  · exact System.inevitable_of_rank Nat.lt_wfRel.wf rank (fun s s' l hs hstep => (hs.step hstep).1)
      (fun s hs => hs.next) (fun s s' l hs hstep => (hs.step hstep).2) hsound

/-- One call holds the key and another waits for it. -/
theorem kmutex_excludes_two : ∃ past m, (machine Nat).Run past m ∧ m.calls = [.holding 0, .waiting 0] ∧
    (machine Nat).Inevitable (fun m => ∀ call ∈ m.calls, call = .unlocked) m :=
  have hexec : (machine Nat).exec [.lock 0, .lock 1] (new [0, 0]) = some _ := rfl
  have hrun := System.run_exec (M := machine Nat) (.start _ ⟨_, rfl⟩) hexec
  ⟨_, _, hrun, rfl, (kmutex_excludes hrun).2.2⟩

end Kmutex
end SingBox.Common
