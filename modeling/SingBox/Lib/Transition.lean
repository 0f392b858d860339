import Mathlib.Data.List.Basic

/-!
# Runs of partial, labelled step functions

A system is a set of initial states and a step function that is undefined on
the labels a state does not offer. A run remembers every state it left together
with the label taken there, latest first, so that statements about the past of
a state need no history variable in the state itself.
-/
namespace SingBox.Lib

structure System (σ ι : Type) where
  init : σ → Prop
  step : σ → ι → Option σ

namespace System

variable {σ ι : Type} (M : System σ ι)

inductive Run : List (σ × ι) → σ → Prop
  | start (s : σ) : M.init s → Run [] s
  | next (past : List (σ × ι)) (s s' : σ) (l : ι) :
      Run past s → M.step s l = some s' → Run ((s, l) :: past) s'

def Reachable (s : σ) : Prop := ∃ past, M.Run past s

variable {M}

variable {s : σ} {past : List (σ × ι)} {allowed : σ → ι → Prop}

/-- Every step of the run was taken with a label allowed in the state it left. -/
def Along (allowed : σ → ι → Prop) (past : List (σ × ι)) : Prop :=
  ∀ e ∈ past, allowed e.1 e.2

@[simp] theorem along_nil (allowed : σ → ι → Prop) : Along allowed [] := by
  intro e he
  cases he

@[simp] theorem along_cons (allowed : σ → ι → Prop) (s : σ) (l : ι) (past : List (σ × ι)) :
    Along allowed ((s, l) :: past) ↔ allowed s l ∧ Along allowed past := by
  simp [Along]

theorem along_true (past : List (σ × ι)) : Along (fun _ _ => True) past := fun _ _ => trivial

/-- An invariant that may speak of the whole past is carried by every run whose
steps are all allowed. -/
theorem Run.invariant_past {I : List (σ × ι) → σ → Prop} (hinit : ∀ s, M.init s → I [] s)
    (hstep : ∀ past s s' l, Along allowed past → I past s → allowed s l → M.step s l = some s' → I ((s, l) :: past) s')
    (hrun : M.Run past s) (hal : Along allowed past) : I past s := by
  induction hrun with
  | start s h => exact hinit s h
  | next past s s' l _ hs ih =>
    obtain ⟨hl, hpast⟩ := (along_cons allowed s l past).mp hal
    exact hstep past s s' l hpast (ih hpast) hl hs

variable {I : σ → Prop} {ls : List ι}

theorem Run.invariant (hinit : ∀ s, M.init s → I s)
    (hstep : ∀ s s' l, I s → allowed s l → M.step s l = some s' → I s') (hrun : M.Run past s)
    (hal : Along allowed past) : I s :=
  Run.invariant_past (M := M) (I := fun _ s => I s) hinit
    (fun _ s s' l _ hi hl hs => hstep s s' l hi hl hs) hrun hal

/-- What every step keeps holds in every run. -/
theorem Run.always (hrun : M.Run past s) (hinit : ∀ s, M.init s → I s)
    (hstep : ∀ s s' l, I s → M.step s l = some s' → I s') : I s := by
  induction hrun with
  | start s h => exact hinit s h
  | next past s s' l _ hs ih => exact hstep s s' l ih hs

/-- The states a run left were reached by its beginning. -/
theorem Run.before (hrun : M.Run past s) :
    ∀ e ∈ past, ∃ earlier, earlier ⊆ past ∧ M.Run earlier e.1 := by
  induction hrun with
  | start s h => intro e he; cases he
  | next past s s' l hr _ ih =>
    intro e he
    rcases List.mem_cons.mp he with rfl | he
    · exact ⟨past, List.subset_cons_self _ _, hr⟩
    · obtain ⟨earlier, hsub, hrun⟩ := ih e he
      exact ⟨earlier, List.subset_cons_of_subset _ hsub, hrun⟩

/-- What every step preserves lies between any state of the past and the last one. -/
theorem Run.since {R : σ → σ → Prop} (hrefl : ∀ s, R s s) (htrans : ∀ s t u, R s t → R t u → R s u)
    (hstep : ∀ past s s' l, M.Run past s → Along allowed past → allowed s l → M.step s l = some s' → R s s')
    (hrun : M.Run past s) (hal : Along allowed past) :
    ∀ e ∈ past, ∀ s', M.step e.1 e.2 = some s' → R s' s := by
  induction hrun with
  | start s h => intro e he; cases he
  | next past s t l hr hs ih =>
    obtain ⟨hl, hpast⟩ := (along_cons allowed s l past).mp hal
    intro e he s' hs'
    rcases List.mem_cons.mp he with rfl | he
    · rw [hs] at hs'
      cases hs'
      exact hrefl t
    · exact htrans s' s t (ih hpast e he s' hs') (hstep past s t l hr hpast hl hs)

/-- Whatever steps are taken from `s`, the system does not stop before `goal`, and it gets there. -/
inductive Inevitable (M : System σ ι) (goal : σ → Prop) : σ → Prop
  | here {s : σ} (h : goal s) : Inevitable M goal s
  | later {s : σ} (hnext : ∃ l s', M.step s l = some s')
      (h : ∀ l s', M.step s l = some s' → Inevitable M goal s') : Inevitable M goal s

/-- A rank that every step lowers, and a step from every state short of the goal. -/
theorem inevitable_of_rank {β : Type} {r : β → β → Prop} (hwf : WellFounded r) (rank : σ → β) {goal : σ → Prop}
    (hinv : ∀ s s' l, I s → M.step s l = some s' → I s') (hnext : ∀ s, I s → goal s ∨ ∃ l s', M.step s l = some s')
    (hrank : ∀ s s' l, I s → M.step s l = some s' → r (rank s') (rank s)) (hs : I s) :
    M.Inevitable goal s := by
  have hacc := hwf.apply (rank s)
  generalize hb : rank s = b at hacc
  induction hacc generalizing s with
  | intro b _ ih =>
    rcases hnext s hs with hgoal | hstep
    · exact .here hgoal
    · exact .later hstep fun l s' h => ih (rank s') (hb ▸ hrank s s' l hs h) (hinv s s' l hs h) rfl

/-- Execute a list of labels, first label first. -/
def exec (M : System σ ι) : List ι → σ → Option σ
  | [], s => some s
  | l :: ls, s => (M.step s l).bind (exec M ls)

/-- The past a successful execution leaves behind. -/
def trace (M : System σ ι) : List ι → σ → List (σ × ι) → List (σ × ι)
  | [], _, past => past
  | l :: ls, s, past =>
    match M.step s l with
    | none => past
    | some s' => trace M ls s' ((s, l) :: past)

theorem run_exec {s' : σ} (hrun : M.Run past s) (h : M.exec ls s = some s') :
    M.Run (M.trace ls s past) s' := by
  induction ls generalizing s past with
  | nil =>
    cases Option.some.inj h
    exact hrun
  | cons l ls ih =>
    cases hs : M.step s l with
    | none => simp [exec, hs] at h
    | some t =>
      simp only [exec, hs, Option.bind_some] at h
      simp only [trace, hs]
      exact ih (.next past s t l hrun hs) h

/-- The steps an execution takes are allowed. -/
def allows (M : System σ ι) (allowed : σ → ι → Prop) [∀ s l, Decidable (allowed s l)] : List ι → σ → Bool
  | [], _ => true
  | l :: ls, s =>
    decide (allowed s l) && match M.step s l with
      | none => true
      | some s' => allows M allowed ls s'

theorem along_trace [∀ s l, Decidable (allowed s l)] (h : M.allows allowed ls s = true) (hp : Along allowed past) :
    Along allowed (M.trace ls s past) := by
  induction ls generalizing s past with
  | nil => exact hp
  | cons l ls ih =>
    rw [allows, Bool.and_eq_true, decide_eq_true_eq] at h
    cases hs : M.step s l with
    | none =>
      simp only [trace, hs]
      exact hp
    | some t =>
      simp only [trace, hs]
      rw [hs] at h
      exact ih h.2 ((along_cons allowed s l past).mpr ⟨h.1, hp⟩)

/-- A run from its start, checked label by label. -/
theorem along_exec [∀ s l, Decidable (allowed s l)] (h : M.allows allowed ls s = true) :
    Along allowed (M.trace ls s []) := along_trace h (along_nil _)

end System
end SingBox.Lib
