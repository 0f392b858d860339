import SingBox.DNS.Outcome
import SingBox.DNS.Sweeps

/-!
# No wake-up is lost

The loop of `resumeExchangeWithRules` blocks only on an exchange that has not completed, and the callback of that
exchange leaves a token in the channel. What the loop does between two blocks lowers the rank of the walk.
-/
namespace SingBox.DNS

open SingBox.Lib

variable {τ ε ρ ι : Type}

/-- An exchange the loop waits for has not completed, or the channel holds a token. -/
def Walk.Awake (w : Walk τ ε ρ ι) (s : Suspension τ ρ ι) : Prop :=
  w.wake = true ∨ ∃ i f, w.Awaits s i ∧ w.futures[i]? = some f ∧ f.woken = false

section
variable {R : Router τ ε ρ ι} {rules : List (Rule ρ ι)} {w : Walk τ ε ρ ι} {x x' : Sys τ ε ρ ι} {s : Suspension τ ρ ι}

theorem Sys.suspend_ne_waiting (x : Sys τ ε ρ ι) (s s' : Suspension τ ρ ι) : (x.suspend s).phase ≠ .waiting s' := by
  unfold suspend
  split
  · split <;> simp
  · simp

theorem Sys.Acts.ne_waiting {r : Rule ρ ι} (h : x.Acts R r x') : x'.phase ≠ .waiting s := by
  cases h with
  | await | drain | exchange => exact suspend_ne_waiting _ _ _
  | _ => simp [Sys.next]

theorem Sys.sweep_waiting {inWalk : Bool} {otherwise : Sys τ ε ρ ι → Sys τ ε ρ ι}
    (h : (x.sweep R inWalk otherwise).phase = .waiting s) : ∃ kept, (∀ a ∈ kept, a.ready x.walk = false) ∧
      x.sweep R inWalk otherwise = otherwise { x with walk.armedRules := kept } := by
  unfold sweep at h ⊢
  split
  next kept hsweep =>
    refine ⟨kept, fun a ha => ?_, rfl⟩
    rw [(sweepArmed_none hsweep).1, List.mem_filter] at ha
    simpa using ha.2
  next hsweep =>
    simp [hsweep] at h
  next hsweep =>
    simp only [hsweep] at h
    split at h
    · exact absurd h (suspend_ne_waiting _ _ _)
    · cases h

/-- Where the loop blocks, an exchange it waits for has not completed. -/
theorem Sys.advance_waiting (hstep : x.advance R rules = some x') (h : x'.phase = .waiting s) :
    ∃ i, x'.walk.Awaits s i ∧ x'.walk.resolved i = false := by
  rcases x with ⟨w, phase, async⟩
  cases advances hstep with
  | default | drain | awaitTag | awaitAnonymous | speculated => exact absurd h (suspend_ne_waiting _ _ _)
  | act r => exact absurd h (Sys.acts _ r).ne_waiting
  | arm =>
    simp only [arm] at h
    split at h <;> cases h
  | sweep =>
    obtain ⟨kept, _, hsweep⟩ := sweep_waiting h
    rw [hsweep] at h
    cases h
  | resweep s =>
    obtain ⟨kept, hready, hsweep⟩ := sweep_waiting h
    rw [hsweep] at h ⊢
    rcases resume_cases (x := ⟨{ w with armedRules := kept }, .resweeping s, async⟩) s hready with
      ⟨p, rfl, heq⟩ | heq | ⟨heq, hi⟩
    all_goals
      rw [heq] at h ⊢
      cases h
    exact hi
  | _ => cases h

/-- A walk that waits for an exchange which has not completed will be woken. -/
theorem Sys.Live.awake (hx : x.Live rules) (hs : x.phase = .waiting s) {i : Nat} (hi : x.walk.Awaits s i)
    (hresolved : x.walk.resolved i = false) : x.walk.Awake s := by
  have hlocated := hx.located
  rw [hs] at hlocated
  have hlt : i < x.walk.futures.length := by
    cases s with
    | await j => exact hi ▸ hlocated.1
    | drain =>
      obtain ⟨a, ha, hmem⟩ := hi
      exact hx.range.armed a ha i hmem
    | pending p => exact hi.elim
  obtain ⟨f, hf, hwoken⟩ := hx.range.not_woken hlt hresolved
  exact .inr ⟨i, f, hi, hf, hwoken⟩

/-- The callback of an exchange leaves a token before the exchange counts as completed. -/
theorem Sys.awake_step (hx : x.Live rules) (h : ∀ s, x.phase = .waiting s → x.walk.Awake s) {l : Label}
    (hstep : x.step R rules l = some x') : ∀ s, x'.phase = .waiting s → x'.walk.Awake s := by
  intro s hs
  cases l with
  | advance =>
    obtain ⟨i, hi, hresolved⟩ := advance_waiting hstep hs
    exact (hx.advance hstep).awake hs hi hresolved
  | complete i =>
    obtain ⟨f, hf, _, rfl⟩ := step_complete hstep
    refine (h s hs).imp_right ?_
    rintro ⟨j, g, hj, hg, hwoken⟩
    by_cases hij : i = j
    · subst hij
      cases hf.symm.trans hg
      refine ⟨i, { f with done := true }, hj, ?_, hwoken⟩
      simp [setFuture, (List.getElem?_eq_some_iff.mp hf).1]
    · exact ⟨j, g, hj, by simpa [setFuture, hij] using hg, hwoken⟩
  | wake i =>
    obtain ⟨f, _, _, _, rfl⟩ := step_wake hstep
    exact .inl rfl

end

/-- In every run: where the loop is blocked on the channel, an exchange it waits for has not completed, or a token is
there; it blocks only on an exchange that has not completed; every step uses up rules, callbacks, armed rules or the
way to the next of them; and so the walk returns, whatever the schedule does. -/
theorem walk_wakes {τ ε ρ ι : Type} (R : Router τ ε ρ ι) (rules : List (Rule ρ ι)) (options : QueryOptions)
    (past : List (Sys τ ε ρ ι × Label)) (x : Sys τ ε ρ ι) (hrun : (machine R rules options).Run past x) :
    (∀ s, x.phase = .waiting s → x.walk.Awake s) ∧
    (∀ x' s, x.advance R rules = some x' → x'.phase = .waiting s →
      ∃ i, x'.walk.Awaits s i ∧ x'.walk.resolved i = false) ∧
    (∀ l x', x.step R rules l = some x' → x'.rank rules < x.rank rules) ∧
    (machine R rules options).Inevitable (fun x => ∃ origin result, x.phase = .returned origin result) x := by
  have hlive := live_run hrun
  refine ⟨?_, fun x' s hstep hs => Sys.advance_waiting hstep hs, fun l x' hstep => Sys.rank_step hlive hstep,
    hlive.returns options⟩
  refine (hrun.always (I := fun x => x.Live rules ∧ ∀ s, x.phase = .waiting s → x.walk.Awake s) ?_ ?_).2
  · rintro _ ⟨async, rfl⟩
    refine ⟨Sys.live_start options async, fun s hs => ?_⟩
    cases hs
  · rintro x x' l ⟨hx, h⟩ hstep
    exact ⟨hx.step hstep, Sys.awake_step hx h hstep⟩

theorem walk_wakes_evaluated : ∃ x s, (machine twoAnswers evaluateRespond plainQuery).Reachable x ∧
    x.phase = .waiting s ∧ x.walk.Awake s := by
  obtain ⟨x, s, hx, hs⟩ : ∃ x s, evaluateRun (List.replicate 11 .advance) = some x ∧ x.phase = .waiting s :=
    ⟨_, _, rfl, rfl⟩
  have hrun := evaluateRun_run hx
  exact ⟨x, s, ⟨_, hrun⟩, hs, (walk_wakes twoAnswers evaluateRespond plainQuery _ x hrun).1 s hs⟩

end SingBox.DNS
