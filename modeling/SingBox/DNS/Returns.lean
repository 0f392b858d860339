import SingBox.DNS.Bindings
import SingBox.Lib.Count
import Mathlib.Algebra.GroupWithZero.Nat
import Mathlib.Data.Prod.Lex

/-!
# Every exchange returns

Under any schedule the walk comes to a result: no step can be repeated for ever, and
where the walk waits, a callback is still to come. The wake-up channel holds one
token, and a callback closes `done` before it offers one, so none is lost.
-/
namespace SingBox.DNS

open SingBox.Lib List Option Bool Walk

variable {τ ε ρ ι : Type}

/-- The future is one of the walk's. -/
def Suspension.InRange (s : Suspension τ ρ ι) (n : Nat) : Prop :=
  match s with
  | .await i => i < n
  | .drain => True
  | .pending p => ∀ i, p.future = some i → i < n

/-- The futures the walk refers to are its own, and those that woke it are done. -/
structure Walk.InRange (w : Walk τ ε ρ ι) : Prop where
  named : ∀ t i, w.namedFutures t = some i → i < w.futures.length
  anonymous : ∀ i, w.anonymousFuture = some i → i < w.futures.length
  terminal : ∀ i, w.terminalFuture = some i → i < w.futures.length
  armed : ∀ a ∈ w.armedRules, ∀ i ∈ a.futures, i < w.futures.length
  woken : ∀ f ∈ w.futures, f.woken = true → f.done = true

/-- A wake-up is there or will come. -/
def Walk.Stirs (w : Walk τ ε ρ ι) : Prop := w.wake = true ∨ ∃ f ∈ w.futures, f.woken = false

section
variable (rules : List (Rule ρ ι))

def Walk.Located (w : Walk τ ε ρ ι) (phase : Phase τ ε ρ ι) : Prop :=
  match phase with
  | .settling _ r | .testing _ r | .matching r | .acting r | .arming r => rules[w.ruleIndex]? = some r
  | .sweeping => w.ruleIndex < rules.length
  | .resuming _ s | .resweeping s => s.InRange w.futures.length
  | .waiting s => s.InRange w.futures.length ∧ w.Stirs
  | .finishing p => ∀ i, p.future = some i → i < w.futures.length
  | _ => True

/-- What every step keeps, whatever the timing. -/
structure Sys.Live (x : Sys τ ε ρ ι) : Prop where
  range : x.walk.InRange
  located : x.walk.Located rules x.phase

end

section
variable {R : Router τ ε ρ ι} {rules : List (Rule ρ ι)} {w w' : Walk τ ε ρ ι} {x x' : Sys τ ε ρ ι}
  {s : Suspension τ ρ ι}

theorem Walk.InRange.later (h : w.InRange) (hl : w.Later w') : w'.InRange where
  named t i hi := hl.length ▸ h.named t i (hl.namedFutures ▸ hi)
  anonymous i hi := hl.length ▸ h.anonymous i (hl.anonymousFuture ▸ hi)
  terminal i hi := hl.length ▸ h.terminal i (hl.terminalFuture ▸ hi)
  armed a ha i hi := hl.length ▸ h.armed a (hl.armedRules ▸ ha) i hi
  woken := hl.woken h.woken

variable {i : Nat}

theorem Walk.InRange.not_woken (h : w.InRange) (hi : i < w.futures.length) (hr : w.resolved i = false) :
    ∃ f, w.futures[i]? = some f ∧ f.woken = false := by
  have hmem := getElem_mem hi
  have hdone : w.futures[i].done = false := by simpa [resolved, List.getElem?_eq_getElem hi] using hr
  refine ⟨w.futures[i], List.getElem?_eq_getElem hi, ?_⟩
  by_contra hwoken
  have := h.woken _ hmem (by simpa using hwoken)
  simp [hdone] at this

/-- Behind a launch a future of the walk is an old one or the new one. -/
theorem Walk.InRange.launched (h : w.InRange) {f : Future τ ε ρ} (hl : Launched w f w') (hwoken : f.woken = false)
    (hterminal : ∀ i, w'.terminalFuture = some i → w.terminalFuture = some i ∨ i = w.futures.length)
    (harmed : w'.armedRules = w.armedRules) : w'.InRange := by
  have hlength : w'.futures.length = w.futures.length + 1 := by simp [hl.futures]
  have hbelow : ∀ {i}, i < w.futures.length ∨ i = w.futures.length → i < w'.futures.length := by omega
  constructor
  · exact fun t i hi => hbelow ((hl.named hi).imp (h.named t i) fun hnew => hnew.2.2)
  · exact hl.anonymous
  · exact fun i hi => hbelow ((hterminal i hi).imp_left (h.terminal i))
  · exact fun a ha i hi => hbelow (.inl (h.armed a (harmed ▸ ha) i hi))
  · intro g hg hg'
    rw [hl.futures] at hg
    rcases mem_append.mp hg with hg | hg
    · exact h.woken g hg hg'
    · cases mem_singleton.mp hg
      rw [hwoken] at hg'
      cases hg'

theorem Walk.InRange.disarm (h : w.InRange) {kept : List (Armed ρ ι)} (hkept : ∀ a ∈ kept, a ∈ w.armedRules) :
    Walk.InRange { w with armedRules := kept } :=
  ⟨h.named, h.anonymous, h.terminal, fun a ha => h.armed a (hkept a ha), h.woken⟩

namespace Sys

section
variable (hrange : x.walk.InRange)
include hrange

theorem live_suspend (hs : s.InRange x.walk.futures.length) : (x.suspend s).Live rules := by
  rcases x.suspend_cases s with heq | ⟨p, rfl, _, heq⟩
  · rw [heq]
    exact ⟨hrange, hs⟩
  · rw [heq]
    exact ⟨hrange, hs⟩

theorem live_next : x.next.Live rules :=
  ⟨⟨hrange.named, hrange.anonymous, hrange.terminal, hrange.armed, hrange.woken⟩, trivial⟩

variable {r : Rule ρ ι}

theorem Acts.live (h : x.Acts R r x') : x'.Live rules := by
  cases h with
  | next options anonymous hanonymous =>
    exact live_next ⟨hrange.named, fun i hi => hrange.anonymous i (hanonymous i hi), hrange.terminal, hrange.armed,
      hrange.woken⟩
  | await i hi => exact live_suspend hrange (hrange.anonymous i hi)
  | drain => exact live_suspend hrange trivial
  | exchange p _ _ hfuture => exact live_suspend hrange fun i hi => hrange.terminal i (hfuture i hi)
  | answer => exact ⟨hrange, trivial⟩
  | evaluate tag transport options =>
    have hl := launched_evaluate hrange.anonymous R r.name tag transport options
    exact ⟨hrange.launched hl rfl (fun _ hi => .inl hi) rfl, trivial⟩
  | speculate transport options =>
    have hl := launched_route hrange.anonymous R r.name transport options
    exact ⟨hrange.launched hl rfl (fun _ hi => .inr (some.inj hi).symm) rfl, trivial⟩

theorem pendingFutures_lt {i : Nat} (hi : i ∈ x.pendingFutures r) :
    i < x.walk.futures.length := by
  rcases (mem_pendingFutures.mp hi).1 with ⟨t, _, ht⟩ | ⟨_, ha⟩
  · exact hrange.named t i ht
  · exact hrange.anonymous i ha

theorem live_arm (hr : rules[x.walk.ruleIndex]? = some r) :
    (x.arm r).Live rules := by
  have harmed : ∀ a : Armed ρ ι, a.futures = x.pendingFutures r →
      Walk.InRange { x.walk with armedRules := x.walk.armedRules ++ [a] } := by
    intro a ha
    refine ⟨hrange.named, hrange.anonymous, hrange.terminal, fun b hb i hi => ?_, hrange.woken⟩
    rcases mem_append.mp hb with hb | hb
    · exact hrange.armed b hb i hi
    · cases mem_singleton.mp hb
      exact pendingFutures_lt hrange (ha ▸ hi)
  unfold arm
  dsimp only
  split
  · exact ⟨harmed _ rfl, (List.getElem?_eq_some_iff.mp hr).1⟩
  · exact live_next (harmed _ rfl)

theorem live_sweep {inWalk : Bool} {otherwise : Sys τ ε ρ ι → Sys τ ε ρ ι}
    (hotherwise : ∀ kept, (∀ a ∈ kept, a ∈ x.walk.armedRules ∧ a.ready x.walk = false) →
      (otherwise { x with walk.armedRules := kept }).Live rules) :
    (x.sweep R inWalk otherwise).Live rules := by
  unfold sweep
  split
  next kept hsweep =>
    refine hotherwise kept fun a ha => ?_
    rw [(sweepArmed_none hsweep).1, mem_filter] at ha
    simpa using ha
  next kept a result hsweep => exact ⟨hrange.disarm (sweepArmed_mem hsweep), trivial⟩
  next kept a p hsweep =>
    obtain ⟨_, _, hjudge⟩ := sweepArmed_commits hsweep
    have hfuture := (Armed.judge_pending hjudge).2
    split
    · exact live_suspend (x := { x with walk.armedRules := [] }) (hrange.disarm (by simp))
        (by simp [Suspension.InRange, hfuture])
    · exact ⟨hrange.disarm (sweepArmed_mem hsweep), by simp [Walk.Located, hfuture]⟩

end

/-- An exchange that is still to complete will wake the walk. -/
theorem stirs_of_unresolved (hrange : w.InRange) {i : Nat} (hi : i < w.futures.length) (h : w.resolved i = false) :
    w.Stirs := by
  obtain ⟨f, hf, hwoken⟩ := hrange.not_woken hi h
  exact .inr ⟨f, mem_of_getElem? hf, hwoken⟩

theorem live_resume (hrange : x.walk.InRange) (hs : s.InRange x.walk.futures.length)
    (hready : ∀ a ∈ x.walk.armedRules, a.ready x.walk = false) : (x.resume s).Live rules := by
  rcases resume_cases s hready with ⟨p, rfl, heq⟩ | heq | ⟨heq, i, hi, hresolved⟩ <;> rw [heq]
  · exact ⟨hrange, hs⟩
  · exact ⟨hrange, trivial⟩
  · refine ⟨hrange, hs, stirs_of_unresolved hrange ?_ hresolved⟩
    cases s with
    | pending p => cases hi
    | await j => exact hi ▸ hs
    | drain =>
      obtain ⟨a, ha, hi⟩ := hi
      exact hrange.armed a ha i hi

theorem Live.advance (h : x.Live rules) (hstep : x.advance R rules = some x') : x'.Live rules := by
  obtain ⟨hrange, hlocated⟩ := h
  rcases x with ⟨w, phase, async⟩
  cases advances hstep with
  | default => exact live_suspend hrange nofun
  | drain | speculated => exact live_suspend hrange trivial
  | bound r hr | plain r hr => exact ⟨hrange, hr⟩
  | settle k r =>
    have hlater := later_settle w k
    refine ⟨hrange.later hlater, ?_⟩
    show rules[(w.settle k).ruleIndex]? = some r
    rw [hlater.ruleIndex]
    exact hlocated
  | awaitTag t _ _ i hi => exact live_suspend hrange (hrange.named t i (unresolved_eq_some hi).1)
  | awaitAnonymous _ i hi => exact live_suspend hrange (hrange.anonymous i (unresolved_eq_some hi).1)
  | race | test | tested | ready | matched | resettled => exact ⟨hrange, hlocated⟩
  | missed => exact live_next hrange
  | act r => exact (Sys.acts _ r).live hrange
  | arm => exact live_arm hrange hlocated
  | sweep => exact live_sweep hrange fun kept hkept => live_next (hrange.disarm fun a ha => (hkept a ha).1)
  | resettle k s =>
    have hlater := later_settle w k
    refine ⟨hrange.later hlater, ?_⟩
    show s.InRange (w.settle k).futures.length
    rw [hlater.length]
    exact hlocated
  | resweep s =>
    refine live_sweep hrange fun kept hkept => ?_
    exact live_resume (hrange.disarm fun a ha => (hkept a ha).1) hlocated fun a ha => (hkept a ha).2
  | wake => exact ⟨⟨hrange.named, hrange.anonymous, hrange.terminal, hrange.armed, hrange.woken⟩, hlocated.1⟩
  | launched | exchange | collect => exact ⟨hrange, trivial⟩

/-- What a callback does leaves the walk where it is. -/
theorem Live.later (h : x.Live rules) (hlater : x.walk.Later w) (hstirs : x.walk.Stirs → w.Stirs) :
    Sys.Live rules { x with walk := w } := by
  refine ⟨h.range.later hlater, ?_⟩
  have hlocated := h.located
  rcases x with ⟨v, phase, async⟩
  cases phase <;> simp only [Walk.Located] at hlocated ⊢ <;> first
    | trivial
    | (rw [hlater.ruleIndex]; exact hlocated)
    | (rw [hlater.length]; exact hlocated)
    | (rw [hlater.length]; exact ⟨hlocated.1, hstirs hlocated.2⟩)

theorem Live.step (h : x.Live rules) {l : Label} (hstep : x.step R rules l = some x') : x'.Live rules := by
  cases l with
  | advance => exact h.advance hstep
  | complete i =>
    obtain ⟨f, hf, hdone, rfl⟩ := step_complete hstep
    have hfuture := mem_of_getElem? hf
    refine h.later (later_setFuture { f with done := true } hf rfl rfl rfl id x.walk.wake) ?_
    rintro (hwake | _)
    · exact .inl hwake
    · refine .inr ⟨{ f with done := true }, mem_set (List.getElem?_eq_some_iff.mp hf).1 _, ?_⟩
      by_contra hwoken
      have := h.range.woken f hfuture (by simpa using hwoken)
      simp [hdone] at this
  | wake i =>
    obtain ⟨f, hf, hdone, _, rfl⟩ := step_wake hstep
    exact h.later (later_setFuture { f with woken := true } hf rfl rfl hdone id true) fun _ => .inl rfl

theorem live_start (options : QueryOptions) (async : Bool) :
    Sys.Live (τ := τ) (ε := ε) rules ⟨.start options, .visiting, async⟩ := by
  refine ⟨⟨?_, ?_, ?_, ?_, ?_⟩, trivial⟩ <;> simp [Walk.start]

/-- The walk blocks in two places only. -/
theorem advance_cases (R : Router τ ε ρ ι) (rules : List (Rule ρ ι)) (x : Sys τ ε ρ ι) :
    (∃ x', x.advance R rules = some x') ∨ (∃ s, x.phase = .waiting s ∧ x.walk.wake = false) ∨
      (∃ p i, x.phase = .finishing p ∧ p.future = some i ∧ x.walk.resolved i = false) ∨
      ∃ origin result, x.phase = .returned origin result := by
  rcases x with ⟨w, phase, async⟩
  cases phase with
  | waiting s => cases hwake : w.wake <;> simp [advance, hwake]
  | finishing p =>
    cases hfuture : p.future with
    | none => simp [advance, hfuture]
    | some i =>
      cases hf : w.futures[i]? with
      | none => simp [hfuture, resolved, hf]
      | some f => cases hdone : f.done <;> simp [advance, hfuture, resolved, hf, hdone]
  | returned origin result => simp
  | testing tags r =>
    left
    rw [← isSome_iff_exists]
    cases tags <;> dsimp only [advance] <;> split <;> rfl
  | visiting =>
    left
    rw [← isSome_iff_exists]
    dsimp only [advance]
    split
    · split <;> rfl
    · rfl
  | settling | matching | resuming =>
    left
    rw [← isSome_iff_exists]
    dsimp only [advance]
    split <;> rfl
  | _ => exact .inl ⟨_, rfl⟩

theorem callback_of_not_woken {f : Future τ ε ρ} (hf : f ∈ x.walk.futures) (hwoken : f.woken = false) :
    ∃ l x', x.step R rules l = some x' := by
  obtain ⟨i, hi⟩ := mem_iff_getElem?.mp hf
  cases hdone : f.done with
  | false => exact ⟨.complete i, x.setFuture i { f with done := true }, by simp [step, hi, hdone]⟩
  | true => exact ⟨.wake i, { x.setFuture i { f with woken := true } with walk.wake := true },
      by simp [step, hi, hdone, hwoken]⟩

/-- Where the walk blocks, a callback is still to run. -/
theorem Live.progress (h : x.Live rules) :
    (∃ origin result, x.phase = .returned origin result) ∨ ∃ l x', x.step R rules l = some x' := by
  have hlocated := h.located
  have hstirs : x.walk.Stirs → x.walk.wake = false → ∃ l x', x.step R rules l = some x' := by
    rintro (hwake | ⟨f, hf, hwoken⟩) hnot
    · rw [hwake] at hnot
      cases hnot
    · exact callback_of_not_woken hf hwoken
  rcases advance_cases R rules x with ⟨x', hx⟩ | ⟨s, hphase, hwake⟩ | ⟨p, i, hphase, hfuture, hresolved⟩ | hreturned
  · exact .inr ⟨.advance, x', hx⟩
  · rw [hphase] at hlocated
    exact .inr (hstirs hlocated.2 hwake)
  · rw [hphase] at hlocated
    have hi : i < x.walk.futures.length := hlocated i hfuture
    obtain ⟨f, hf, hwoken⟩ := h.range.not_woken hi hresolved
    exact .inr (callback_of_not_woken (mem_of_getElem? hf) hwoken)
  · exact .inl hreturned

end Sys

/-! ### What a step uses up -/

/-- The callback steps an exchange has left, and one more for its wake-up. -/
def Future.toCome (f : Future τ ε ρ) : Nat := if !f.done then 3 else if !f.woken then 2 else 0

/-- The launch of a speculative route counts for more than the exchange it adds. -/
def Walk.toCome (w : Walk τ ε ρ ι) : Nat :=
  4 * w.terminalFuture.isNone.toNat + (w.futures.map Future.toCome).sum + w.wake.toNat

section
variable (rules : List (Rule ρ ι))

/-- More than the steps of one visit of rule `i`. -/
def Walk.visit (w : Walk τ ε ρ ι) (i : Nat) : Nat :=
  2 * w.futures.length + 12 + (rules[i]?.map fun r => r.matchResponseTags.length).getD 0

/-- The rules ahead; none once the result is settled. -/
def Sys.ahead (x : Sys τ ε ρ ι) : Nat :=
  match x.phase with
  | .finishing _ | .returned .. | .resuming _ (.pending _) | .resweeping (.pending _) | .waiting (.pending _) => 0
  | .sweeping => rules.length - x.walk.ruleIndex
  | _ => rules.length - x.walk.ruleIndex + 1

/-- The suspension is over: the walk visits its rule again, unless a sweep disarms a rule. -/
def Suspension.over (s : Suspension τ ρ ι) (w : Walk τ ε ρ ι) : Bool :=
  match s with
  | .await i => w.resolved i
  | .drain => w.armedRules.isEmpty
  | .pending _ => false

def Suspension.place (s : Suspension τ ρ ι) (w : Walk τ ε ρ ι) : Nat :=
  if s.over w then w.visit rules w.ruleIndex + 1 else 3

theorem Suspension.place_le (s : Suspension τ ρ ι) (w : Walk τ ε ρ ι) :
    3 ≤ s.place rules w ∧ s.place rules w ≤ w.visit rules w.ruleIndex + 1 := by
  simp only [place, visit]
  split <;> omega

/-- The steps up to the next rule or the next wait. -/
def Sys.place (x : Sys τ ε ρ ι) : Nat :=
  let n := x.walk.futures.length
  match x.phase with
  | .visiting => x.walk.visit rules x.walk.ruleIndex
  | .settling k r => n + 9 + r.matchResponseTags.length + (n - k)
  | .testing tags _ => n + 8 + tags.length
  | .matching _ => n + 7
  | .acting _ => n + 6
  | .launching _ => x.walk.visit rules x.walk.ruleIndex + n + 3
  | .sweeping => x.walk.visit rules (x.walk.ruleIndex + 1) + 1
  | .resuming k s => s.place rules x.walk + 1 + (n - k)
  | .resweeping s => s.place rules x.walk
  | .waiting _ => 2
  | .finishing _ => 1
  | .arming _ | .returned .. => 0

def Sys.rank (x : Sys τ ε ρ ι) : Nat ×ₗ Nat ×ₗ Nat ×ₗ Nat :=
  toLex (x.ahead rules, toLex (x.walk.toCome, toLex (x.walk.armedRules.length, x.place rules)))

end

namespace Sys

section

theorem rank_lt_of_ahead (h : x'.ahead rules < x.ahead rules) : x'.rank rules < x.rank rules := by
  simp only [rank, Prod.Lex.toLex_lt_toLex]
  exact .inl h

section
variable (hahead : x'.ahead rules ≤ x.ahead rules)
include hahead

theorem rank_lt_of_toCome (h : x'.walk.toCome < x.walk.toCome) :
    x'.rank rules < x.rank rules := by
  simp only [rank, Prod.Lex.toLex_lt_toLex]
  omega

theorem rank_lt_of_armed (htoCome : x'.walk.toCome ≤ x.walk.toCome)
    (h : x'.walk.armedRules.length < x.walk.armedRules.length) : x'.rank rules < x.rank rules := by
  simp only [rank, Prod.Lex.toLex_lt_toLex]
  omega

theorem rank_lt_of_place (htoCome : x'.walk.toCome ≤ x.walk.toCome)
    (harmed : x'.walk.armedRules.length ≤ x.walk.armedRules.length) (h : x'.place rules < x.place rules) :
    x'.rank rules < x.rank rules := by
  simp only [rank, Prod.Lex.toLex_lt_toLex]
  omega

end

end

/-- A suspension that is not over waits for a wake-up. -/
theorem rank_suspend (hover : s.over x.walk = false) (hahead : rules.length - x.walk.ruleIndex + 1 ≤ x.ahead rules)
    (hplace : x.walk.futures.length + 4 < x.place rules) :
    (x.suspend s).rank rules < x.rank rules := by
  rcases x.suspend_cases s with heq | ⟨p, rfl, _, heq⟩
  · rw [heq]
    refine rank_lt_of_place ?_ (le_refl _) (le_refl _) ?_
    · unfold ahead at hahead ⊢
      cases s <;> dsimp only at hahead ⊢ <;> omega
    · refine lt_of_le_of_lt ?_ hplace
      simp only [place, Suspension.place, hover, false_eq_true, if_false]
      omega
  · rw [heq]
    refine rank_lt_of_ahead ?_
    simp only [ahead] at hahead ⊢
    omega

theorem rank_next {y : Sys τ ε ρ ι} (hindex : x.walk.ruleIndex < rules.length)
    (hahead : rules.length - x.walk.ruleIndex + 1 ≤ y.ahead rules) : x.next.rank rules < y.rank rules := by
  refine rank_lt_of_ahead ?_
  simp only [next, ahead] at hahead ⊢
  omega

theorem Acts.rank {r : Rule ρ ι} (h : x.Acts R r x') (hphase : x.phase = .acting r)
    (hindex : x.walk.ruleIndex < rules.length) : x'.rank rules < x.rank rules := by
  have hahead : x.ahead rules = rules.length - x.walk.ruleIndex + 1 := by simp only [ahead, hphase]
  have hplace : x.place rules = x.walk.futures.length + 6 := by simp only [place, hphase]
  cases h with
  | next => exact rank_next hindex hahead.ge
  | await i _ hresolved => exact rank_suspend hresolved hahead.ge (by omega)
  | drain harmed => exact rank_suspend harmed hahead.ge (by omega)
  | exchange => exact rank_suspend rfl hahead.ge (by omega)
  | answer | evaluate =>
    refine rank_lt_of_ahead ?_
    rw [hahead]
    simp only [ahead, launchEvaluate]
    omega
  | speculate transport options hnone =>
    refine rank_lt_of_toCome hahead.ge ?_
    simp only [toCome, launchRoute, launchDNSEvaluate, Future.toCome, hnone, map_append, sum_append, map_cons, map_nil,
      sum_cons, sum_nil, isNone_some, Bool.not_false, Bool.toNat_true, Bool.toNat_false, if_true]
    omega

theorem rank_arm {r : Rule ρ ι} (hphase : x.phase = .arming r) (hindex : x.walk.ruleIndex < rules.length) :
    (x.arm r).rank rules < x.rank rules := by
  have hahead : x.ahead rules = rules.length - x.walk.ruleIndex + 1 := by simp only [ahead, hphase]
  unfold arm
  dsimp only
  split
  · refine rank_lt_of_ahead ?_
    rw [hahead]
    simp only [ahead]
    omega
  · exact rank_next hindex hahead.ge

variable {kept : List (Armed ρ ι)}

/-- A sweep disarms rules or leaves them as they are. -/
theorem length_sweepArmed {armed : List (Armed ρ ι)} {committed : Option (Armed ρ ι × Commit τ ε ρ ι)}
    (h : sweepArmed R w armed = (kept, committed)) : kept.length ≤ armed.length := by
  cases committed with
  | none =>
    rw [(sweepArmed_none h).1]
    exact length_filter_le _ _
  | some p =>
    obtain ⟨before, behind, rfl, rfl, _⟩ := sweepArmed_some h
    have := length_filter_le (fun b : Armed ρ ι => !b.ready w) before
    simp only [length_append, length_cons]
    omega

theorem rank_sweeping (hphase : x.phase = .sweeping) (hindex : x.walk.ruleIndex < rules.length) :
    (x.sweep R true next).rank rules < x.rank rules := by
  have hahead : x.ahead rules = rules.length - x.walk.ruleIndex := by simp only [ahead, hphase]
  unfold sweep
  split
  next kept hsweep =>
    refine rank_lt_of_place ?_ (le_refl _) (length_sweepArmed hsweep) ?_
    · rw [hahead]
      simp only [next, ahead]
      omega
    · simp only [next, place, hphase, visit]
      omega
  · refine rank_lt_of_ahead ?_
    rw [hahead]
    simp only [ahead]
    omega
  next kept a p hsweep =>
    refine rank_lt_of_ahead ?_
    rw [hahead]
    rcases suspend_cases { x with walk.armedRules := [] } (.pending p) with heq | ⟨q, _, _, heq⟩ <;>
      rw [if_pos rfl, heq] <;> simp only [ahead] <;> omega

theorem rank_resume (hphase : x.phase = .resweeping s) (hkept : kept.length ≤ x.walk.armedRules.length) :
    (Sys.resume { x with walk.armedRules := kept } s).rank rules < x.rank rules := by
  have hahead : (Sys.resume { x with walk.armedRules := kept } s).ahead rules ≤ x.ahead rules := by
    cases s with
    | pending p => exact Nat.zero_le _
    | await | drain =>
      simp only [ahead, resume, hphase]
      split <;> omega
  by_cases hless : kept.length < x.walk.armedRules.length
  · cases s <;> exact rank_lt_of_armed hahead (le_refl _) hless
  -- no rule was disarmed, so the suspension is over exactly if it was over before
  have hempty : kept.isEmpty = x.walk.armedRules.isEmpty := by
    rw [Bool.eq_iff_iff, isEmpty_iff_length_eq_zero, isEmpty_iff_length_eq_zero]
    omega
  cases s with
  | pending p =>
    refine rank_lt_of_place hahead (le_refl _) hkept ?_
    simp [place, resume, Suspension.place, Suspension.over, hphase]
  | await i =>
    refine rank_lt_of_place hahead (le_refl _) hkept ?_
    cases hover : x.walk.futures[i]?.any Future.done <;>
      simp [place, resume, Suspension.place, Suspension.over, hphase, visit, resolved, hover]
  | drain =>
    refine rank_lt_of_place hahead (le_refl _) hkept ?_
    cases hover : x.walk.armedRules.isEmpty <;>
      simp [place, resume, Suspension.place, Suspension.over, hphase, visit, hempty, hover]

theorem rank_resweeping (hphase : x.phase = .resweeping s) :
    (x.sweep R false fun x => x.resume s).rank rules < x.rank rules := by
  have hplace : 3 ≤ x.place rules := by
    simp only [place, hphase]
    exact (s.place_le rules x.walk).1
  unfold sweep
  split
  next kept hsweep => exact rank_resume hphase (length_sweepArmed hsweep)
  next kept a result hsweep =>
    refine rank_lt_of_place (Nat.zero_le _) (le_refl _) (length_sweepArmed hsweep) ?_
    exact lt_of_lt_of_le (by simp [place]) hplace
  next kept a p hsweep =>
    rw [if_neg nofun]
    refine rank_lt_of_place (Nat.zero_le _) (le_refl _) (length_sweepArmed hsweep) ?_
    exact lt_of_lt_of_le (by simp [place]) hplace

/-- Filing a response leaves every callback as it is. -/
theorem toCome_settle (w : Walk τ ε ρ ι) (k : Nat) : (w.settle k).toCome = w.toCome := by
  rcases w.settle_cases k with ⟨heq, _⟩ | ⟨f, hf, _, _, heq⟩
  · rw [heq]
  have hsame : (w.futures.set k { f with settled := true }).map Future.toCome = w.futures.map Future.toCome := by
    refine ext_getElem? fun i => ?_
    rw [List.getElem?_map, List.getElem?_map]
    exact map_setFuture { f with settled := true } hf rfl i
  rw [heq]
  simp only [toCome, hsame]

theorem place_settle (s : Suspension τ ρ ι) (w : Walk τ ε ρ ι) (k : Nat) :
    s.place rules (w.settle k) = s.place rules w := by
  have hlater := w.later_settle k
  have hover : s.over (w.settle k) = s.over w := by
    cases s with
    | await i => exact w.settle_resolved k i
    | drain => simp only [Suspension.over, hlater.armedRules]
    | pending p => rfl
  simp only [Suspension.place, hover, visit, hlater.length, hlater.ruleIndex]

theorem rank_advance (h : x.Live rules) (hstep : x.advance R rules = some x') : x'.rank rules < x.rank rules := by
  obtain ⟨hrange, hlocated⟩ := h
  rcases x with ⟨w, phase, async⟩
  have hindex : ∀ {r}, rules[w.ruleIndex]? = some r → w.ruleIndex < rules.length :=
    fun hr => (List.getElem?_eq_some_iff.mp hr).1
  have hvisit : w.futures.length + 4 < w.visit rules w.ruleIndex := by
    simp only [visit]
    omega
  have hsettle : ∀ k, rules.length - (w.settle k).ruleIndex = rules.length - w.ruleIndex :=
    fun k => by rw [(w.later_settle k).ruleIndex]
  cases advances hstep with
  | default => exact rank_suspend rfl (le_refl _) hvisit
  | drain _ harmed => exact rank_suspend (by simpa [Suspension.over] using harmed) (le_refl _) hvisit
  | bound r hr =>
    refine rank_lt_of_place (le_refl _) (le_refl _) (le_refl _) ?_
    simp only [place, visit, hr, map_some, getD_some]
    omega
  | settle k r =>
    have hlater := w.later_settle k
    refine rank_lt_of_place ?_ (toCome_settle w k).le (by simp [hlater.armedRules]) ?_
    · simp [ahead, hlater.ruleIndex]
    · simp only [place, hlater.length]
      omega
  | awaitTag _ _ _ i hi | awaitAnonymous _ i hi =>
    refine rank_suspend (unresolved_eq_some hi).2 (le_refl _) ?_
    simp only [place]
    omega
  | missed => exact rank_next (hindex hlocated) (le_refl _)
  | act r => exact (Sys.acts _ r).rank rfl (hindex hlocated)
  | arm => exact rank_arm rfl (hindex hlocated)
  | speculated =>
    refine rank_lt_of_place (le_refl _) (le_refl _) (le_refl _) ?_
    have := Suspension.drain.place_le rules w
    simp only [suspend, place]
    omega
  | sweep => exact rank_sweeping rfl hlocated
  | resettle k s =>
    have hlater := w.later_settle k
    refine rank_lt_of_place ?_ (toCome_settle w k).le (by simp [hlater.armedRules]) ?_
    · cases s <;> simp [ahead, hlater.ruleIndex]
    · simp only [place, hlater.length, place_settle]
      omega
  | resettled k s =>
    refine rank_lt_of_place ?_ (le_refl _) (le_refl _) ?_
    · cases s <;> exact le_refl _
    · simp only [place]
      omega
  | resweep => exact rank_resweeping rfl
  | wake s hwake =>
    refine rank_lt_of_toCome ?_ ?_
    · cases s <;> exact le_refl _
    · simp [toCome, hwake]
  | plain | race | test | tested | ready | matched | launched | exchange | collect =>
    refine rank_lt_of_place (le_refl _) (le_refl _) (le_refl _) ?_
    simp only [place, visit, length_cons]
    omega

theorem rank_step (h : x.Live rules) {l : Label} (hstep : x.step R rules l = some x') :
    x'.rank rules < x.rank rules := by
  cases l with
  | advance => exact rank_advance h hstep
  | complete i =>
    obtain ⟨f, hf, hdone, rfl⟩ := step_complete hstep
    refine rank_lt_of_toCome (le_refl _) ?_
    have hsum := sum_map_set_add (f := Future.toCome) hf { f with done := true }
    have hless : Future.toCome { f with done := true } < f.toCome := by
      cases hwoken : f.woken <;> simp [Future.toCome, hdone]
    simp only [toCome, setFuture]
    omega
  | wake i =>
    obtain ⟨f, hf, hdone, hwoken, rfl⟩ := step_wake hstep
    refine rank_lt_of_toCome (le_refl _) ?_
    have hsum := sum_map_set_add (f := Future.toCome) hf { f with woken := true }
    have hless : Future.toCome { f with woken := true } + 2 = f.toCome := by simp [Future.toCome, hdone, hwoken]
    simp only [toCome, setFuture, toNat_true]
    omega

end Sys

theorem live_run {options : QueryOptions} {past : List (Sys τ ε ρ ι × Label)}
    (hrun : (machine R rules options).Run past x) : x.Live rules := by
  refine hrun.always ?_ fun x x' l h hstep => h.step hstep
  rintro _ ⟨async, rfl⟩
  exact Sys.live_start options async

/-- Every exchange comes to a result, whatever the schedule does. -/
theorem Sys.Live.returns (h : x.Live rules) (options : QueryOptions) :
    (machine R rules options).Inevitable (fun x => ∃ origin result, x.phase = .returned origin result) x := by
  refine System.inevitable_of_rank (I := fun x => x.Live rules) wellFounded_lt (fun x => x.rank rules) ?_ ?_ ?_ h
  · exact fun x x' l h hstep => h.step hstep
  · exact fun x h => h.progress
  · exact fun x x' l h hstep => Sys.rank_step h hstep

end
end SingBox.DNS
