import SingBox.DNS.Bindings

/-!
# The outcome does not depend on timing

Along a run the walk stands where the sequential meaning of the rules is, except where
a callback slips in between `settleDNSFutures` and the test of the future it belongs to.
A rule that ends the walk without a race ends it with the sequential result.
-/
namespace SingBox.DNS

open SingBox.Lib Option Bool List Sys Walk

variable {τ ε ρ ι : Type}

/-- The exchange does not end through a race rule. -/
def Origin.Plain (o : Origin ρ ι) : Prop := ∀ p ∈ o, p.2.race = false

section
variable (R : Router τ ε ρ ι) (rules : List (Rule ρ ι)) (first : Scene τ ε ρ)

def Origin.Known (o : Origin ρ ι) : Prop := ∀ p ∈ o, rules[p.1]? = some p.2

/-- The result `finishPendingExchange` returns in the end. -/
def Pending.ComesTo (p : Pending τ ρ ι) (w : Walk τ ε ρ ι) (result : Result τ ε ρ) : Prop :=
  match p.future with
  | none => p.exchanged R = result
  | some i => ∃ e, w.evaluated i = some e ∧ .ofOutcome e.transport e.outcome = result

structure Pending.Right (p : Pending τ ρ ι) (w : Walk τ ε ρ ι) : Prop where
  known : p.origin.Known rules
  result : p.origin.Plain → p.ComesTo R w (sequential R rules first)

def Suspension.Right (s : Suspension τ ρ ι) (w : Walk τ ε ρ ι) : Prop :=
  match s with
  | .pending p => p.Right R rules first w
  | _ => True

/-- The speculative exchange of a route is the one the route would make now. -/
structure Walk.Speculates (w : Walk τ ε ρ ι) (i : Nat) : Prop where
  index : w.terminalIndex ≤ w.ruleIndex
  launched : w.terminalIndex = w.ruleIndex →
    ∃ r server speculative options transport queryOptions, rules[w.ruleIndex]? = some r ∧
      r.action = .route server speculative options ∧
      R.resolveDNSRoute server options w.effectiveOptions = some (transport, queryOptions) ∧
      w.evaluated i = some (r.exchanged R transport queryOptions)

/-- What holds of the walk wherever it stands. -/
structure Walk.Base (w : Walk τ ε ρ ι) : Prop where
  bound : w.Bound
  armed : ∀ a ∈ w.armedRules, a.rule.race = true ∧ rules[a.ruleIndex]? = some a.rule
  terminal : ∀ i, w.terminalFuture = some i → w.Speculates R rules i

/-- What holds where the walk stands. -/
def Walk.Stands (w : Walk τ ε ρ ι) (phase : Phase τ ε ρ ι) : Prop :=
  match phase with
  | .visiting | .launching _ => Reaches R rules first w.ruleIndex w.scene
  | .settling _ r => Reaches R rules first w.ruleIndex w.scene ∧ rules[w.ruleIndex]? = some r
  | .testing tags r =>
    (Reaches R rules first w.ruleIndex w.scene ∧ rules[w.ruleIndex]? = some r) ∧ r.race = false ∧
      ∀ t ∈ r.matchResponseTags, t ∈ tags ∨ ∀ i, w.namedFutures t = some i → w.settledAt i = true
  | .matching r =>
    (Reaches R rules first w.ruleIndex w.scene ∧ rules[w.ruleIndex]? = some r) ∧ r.race = false ∧ w.Seen r
  | .acting r =>
    (Reaches R rules first w.ruleIndex w.scene ∧ rules[w.ruleIndex]? = some r) ∧ r.race = false ∧ w.Seen r ∧
      r.holds w.scene = true
  | .arming r => (Reaches R rules first w.ruleIndex w.scene ∧ rules[w.ruleIndex]? = some r) ∧ r.race = true
  | .sweeping =>
    ∃ r, (Reaches R rules first w.ruleIndex w.scene ∧ rules[w.ruleIndex]? = some r) ∧ r.race = true
  | .resuming _ s | .resweeping s | .waiting s =>
    Reaches R rules first w.ruleIndex w.scene ∧ s.Right R rules first w
  | .finishing p => p.Right R rules first w
  | .returned origin result => origin.Known rules ∧ (origin.Plain → result = sequential R rules first)

/-- The walk stands where the sequential meaning is. -/
structure Sys.Sound (x : Sys τ ε ρ ι) : Prop where
  base : x.walk.Base R rules
  stands : x.walk.Stands R rules first x.phase

end

section
variable {R : Router τ ε ρ ι} {rules : List (Rule ρ ι)} {first : Scene τ ε ρ} {w w' : Walk τ ε ρ ι}

theorem Pending.Right.later {p : Pending τ ρ ι} (h : p.Right R rules first w)
    (hl : ∀ i e, w.evaluated i = some e → w'.evaluated i = some e) : p.Right R rules first w' where
  known := h.known
  result := by
    intro hp
    have hr := h.result hp
    unfold ComesTo at hr ⊢
    split
    · simp_all
    next i hi =>
      rw [hi] at hr
      obtain ⟨e, he, hres⟩ := hr
      exact ⟨e, hl i e he, hres⟩

theorem Suspension.Right.later {s : Suspension τ ρ ι} (h : s.Right R rules first w)
    (hl : ∀ i e, w.evaluated i = some e → w'.evaluated i = some e) : s.Right R rules first w' := by
  cases s with
  | pending p => exact Pending.Right.later h hl
  | await | drain => trivial

theorem Walk.Base.later (h : w.Base R rules) (hl : w.Later w') (hb : w'.Bound) : w'.Base R rules where
  bound := hb
  armed := hl.armedRules ▸ h.armed
  terminal := by
    intro i hi
    rw [hl.terminalFuture] at hi
    obtain ⟨hindex, hlaunched⟩ := h.terminal i hi
    constructor
    · rw [hl.terminalIndex, hl.ruleIndex]
      exact hindex
    · rw [hl.terminalIndex, hl.ruleIndex, hl.effectiveOptions, hl.evaluated]
      exact hlaunched

theorem Walk.Stands.later {phase : Phase τ ε ρ ι} (h : w.Stands R rules first phase) (hl : w.Later w') :
    w'.Stands R rules first phase := by
  have hevaluated : ∀ i e, w.evaluated i = some e → w'.evaluated i = some e := by
    intro i e he
    rw [hl.evaluated, he]
  unfold Walk.Stands at h ⊢
  rw [hl.ruleIndex, hl.scene]
  cases phase with
  | testing tags r =>
    refine ⟨h.1, h.2.1, fun t ht => (h.2.2 t ht).imp id fun hs i hi => ?_⟩
    exact hl.settledAt i (hs i (hl.namedFutures ▸ hi))
  | matching r => exact ⟨h.1, h.2.1, h.2.2.later hl⟩
  | acting r => exact ⟨h.1, h.2.1, h.2.2.1.later hl, h.2.2.2⟩
  | resuming | resweeping | waiting => exact ⟨h.1, h.2.later hevaluated⟩
  | finishing p => exact h.later hevaluated
  | _ => exact h

theorem Sys.Sound.later {x : Sys τ ε ρ ι} (h : x.Sound R rules first) (hl : x.walk.Later w') (hb : w'.Bound)
    (async : Bool) : Sys.Sound R rules first ⟨w', x.phase, async⟩ :=
  ⟨h.base.later hl hb, h.stands.later hl⟩

/-! ### The steps of the walk -/

theorem Walk.Base.disarm (h : w.Base R rules) {kept : List (Armed ρ ι)} (hkept : ∀ a ∈ kept, a ∈ w.armedRules)
    (wake : Bool) : Walk.Base R rules { w with armedRules := kept, wake := wake } where
  bound := h.bound.same rfl rfl rfl rfl rfl
  armed a ha := h.armed a (hkept a ha)
  terminal i hi := ⟨(h.terminal i hi).index, (h.terminal i hi).launched⟩

theorem Walk.Base.moved (h : w.Base R rules) (hb : w'.Bound) (hindex : w'.ruleIndex = w.ruleIndex + 1)
    (harmed : ∀ a ∈ w'.armedRules, a.rule.race = true ∧ rules[a.ruleIndex]? = some a.rule)
    (hfuture : w'.terminalFuture = w.terminalFuture) (hterminal : w'.terminalIndex = w.terminalIndex) :
    w'.Base R rules where
  bound := hb
  armed := harmed
  terminal := by
    intro i hi
    rw [hfuture] at hi
    have hle := (h.terminal i hi).index
    constructor
    · rw [hterminal, hindex]
      omega
    · intro heq
      rw [hterminal, hindex] at heq
      omega

namespace Sys

variable {x : Sys τ ε ρ ι} {r : Rule ρ ι}

theorem sound_suspend (hbase : x.walk.Base R rules) (hreach : Reaches R rules first x.walk.ruleIndex x.walk.scene)
    {s : Suspension τ ρ ι} (hright : s.Right R rules first x.walk) : (x.suspend s).Sound R rules first := by
  rcases x.suspend_cases s with heq | ⟨p, rfl, _, heq⟩
  · rw [heq]
    exact ⟨hbase, hreach, hright⟩
  · rw [heq]
    exact ⟨hbase, hright⟩

theorem sound_next (hbase : x.walk.Base R rules)
    (hreach : Reaches R rules first (x.walk.ruleIndex + 1) x.walk.scene) : x.next.Sound R rules first := by
  exact ⟨hbase.moved (hbase.bound.same rfl rfl rfl rfl rfl) rfl hbase.armed rfl rfl, hreach⟩

end Sys

/-- The walk stands at a rule that matched. -/
structure Walk.Takes (R : Router τ ε ρ ι) (rules : List (Rule ρ ι)) (first : Scene τ ε ρ) (w : Walk τ ε ρ ι)
    (r : Rule ρ ι) : Prop where
  base : w.Base R rules
  reach : Reaches R rules first w.ruleIndex w.scene
  rule : rules[w.ruleIndex]? = some r
  plain : r.race = false
  seen : w.Seen r
  holds : r.holds w.scene = true

namespace Walk.Takes

variable {x : Sys τ ε ρ ι} {r : Rule ρ ι} (h : x.walk.Takes R rules first r)
include h

theorem ends_eq : r.ends R x.walk.scene = r.final R x.walk.scene := by
  simp [Rule.ends, h.plain, h.holds]

theorem known : Origin.Known rules (some (x.walk.ruleIndex, r)) := by
  intro p hp
  cases mem_some_iff.mp hp
  exact h.rule

theorem sound_drain : (x.suspend .drain).Sound R rules first := sound_suspend h.base h.reach trivial

theorem sound_next (hfinal : r.final R x.walk.scene = none) (hpass : r.pass R x.walk.scene = x.walk.scene) :
    x.next.Sound R rules first := by
  have hreach := h.reach.next h.rule (h.ends_eq.trans hfinal)
  rw [hpass] at hreach
  exact Sys.sound_next h.base hreach

theorem sound_final {result : Result τ ε ρ} (hfinal : r.final R x.walk.scene = some result) :
    (x.final r result).Sound R rules first := by
  unfold final
  split
  · exact ⟨h.base, h.known, fun _ => (h.reach.ends h.rule (h.ends_eq.trans hfinal)).symm⟩
  · exact h.sound_drain

theorem sound_respond (hvalid : Ordered [] rules) (haction : r.action = .respond) :
    (x.respond r).Sound R rules first := by
  have hmem : r ∈ rules := mem_of_getElem? h.rule
  unfold respond
  split
  · exact h.sound_drain
  split
  · -- a tagged response, which is filed
    rename_i htag
    have hfinal := r.final_respond R x.walk.scene haction
    rw [Rule.responded, if_pos htag, ← h.base.bound.responding_named (h.seen.tags _ (r.tag_mem htag))] at hfinal
    split
    next hnone =>
      rw [hnone] at hfinal
      exact h.sound_final hfinal
    next response hsome =>
      rw [hsome] at hfinal
      exact h.sound_final hfinal
  next htag =>
    split
    · exact sound_suspend h.base h.reach trivial
    -- the untagged response, which is in
    rename_i hunresolved
    have hdone : ∀ i, x.walk.anonymousFuture = some i → x.walk.resolved i = true := by
      cases hbindings : r.hasBindings with
      | true =>
        have htags := hvalid.respond r hmem (by rw [haction]; rfl) (by simpa using htag)
        exact h.seen.anonymous (by simpa [Rule.hasBindings, htags] using hbindings)
      | false =>
        intro i hi
        simpa [hbindings, unresolved, hi] using hunresolved
    have hfinal := r.final_respond R x.walk.scene haction
    rw [Rule.responded, if_neg htag] at hfinal
    have hanswer := hfinal.trans (congrArg some (responding_future hdone).symm)
    split
    next hnone =>
      rw [anonymousResponse] at hnone
      rw [hnone] at hanswer
      exact h.sound_final hanswer
    next response hsome =>
      rw [anonymousResponse] at hsome
      rw [hsome] at hanswer
      exact h.sound_final hanswer

variable {tag server : String} {speculative : Bool} {options : RouteOptions}

theorem fresh (hvalid : Ordered [] rules) (hfirst : ∀ t, first.named t = none)
    (htag : r.action.evaluateTag = some tag) (hne : tag ≠ "") : x.walk.namedFutures tag = none := by
  cases hnamed : x.walk.namedFutures tag with
  | none => rfl
  | some i =>
    have hbound : x.walk.scene.named tag ≠ none := by
      change (x.walk.namedFutures tag).bind x.walk.evaluated ≠ none
      rw [hnamed, bind_some, evaluated, getElem?_eq_getElem (h.base.bound.lt hnamed)]
      simp
    obtain ⟨k, r', hk, hr', htag'⟩ := h.reach.evaluated (hfirst tag) hbound
    exact absurd htag' ((hvalid.unique _ r tag h.rule htag hne).2 k r' hk hr')

theorem sound_evaluate (hvalid : Ordered [] rules) (hfirst : ∀ t, first.named t = none)
    (haction : r.action = .evaluate server tag speculative options) :
    (x.evaluate R r server tag speculative options).Sound R rules first := by
  have hends : r.ends R x.walk.scene = none := by simp [h.ends_eq, Rule.final, haction]
  have hreach := h.reach.next h.rule hends
  have hb := h.base.bound
  unfold evaluate
  split
  next htransport =>
    have hpass : r.pass R x.walk.scene =
        if tag = "" then { x.walk.scene with anonymous := none } else x.walk.scene := by
      simp [Rule.pass, h.plain, h.holds, haction, htransport]
    rw [hpass] at hreach
    by_cases htag : tag = ""
    · rw [if_pos htag] at hreach ⊢
      refine Sys.sound_next ?_ hreach
      exact ⟨⟨hb.tagged, hb.named, by simp, hb.responses, hb.transports, hb.absent, hb.done⟩, h.base.armed,
        fun i hi => ⟨(h.base.terminal i hi).index, (h.base.terminal i hi).launched⟩⟩
    · rw [if_neg htag] at hreach ⊢
      exact Sys.sound_next h.base hreach
  next transport htransport =>
    split
    · exact h.sound_drain
    have hpass : r.pass R x.walk.scene = x.walk.scene.bind tag
        (r.exchanged R transport (applyDNSRouteOptions x.walk.effectiveOptions options)) := by
      simp only [Rule.pass, h.plain, h.holds, haction, htransport, Bool.not_false, Bool.and_self, if_true]
      rfl
    rw [hpass] at hreach
    have hlaunched := launched_evaluate hb.anonymous R r.name tag transport
      (applyDNSRouteOptions x.walk.effectiveOptions options)
    have hbound := hb.launched hlaunched fun hne => h.fresh hvalid hfirst (by rw [haction]; rfl) hne
    refine ⟨h.base.moved hbound rfl h.base.armed rfl rfl, ?_⟩
    change Reaches R rules first (x.walk.ruleIndex + 1) (scene _)
    rw [hb.scene_bind hlaunched rfl rfl]
    exact hreach

theorem sound_route (haction : r.action = .route server speculative options) :
    (x.route R r server speculative options).Sound R rules first := by
  have hb := h.base.bound
  have hpass : r.pass R x.walk.scene = x.walk.scene := by simp [Rule.pass, haction]
  have hfinal : r.final R x.walk.scene =
      (R.resolveDNSRoute server options x.walk.effectiveOptions).map fun p =>
        .ofOutcome p.1 (r.exchanged R p.1 p.2).outcome := by
    simp only [Rule.final, haction]
    rfl
  unfold route
  split
  next hroute => exact h.sound_next (by rw [hfinal, hroute]; rfl) hpass
  next transport queryOptions hroute =>
    have hresult : sequential R rules first =
        .ofOutcome transport (r.exchanged R transport queryOptions).outcome :=
      h.reach.ends h.rule (by rw [h.ends_eq, hfinal, hroute]; rfl)
    dsimp only
    split
    · split
      · -- the exchange is launched ahead, and the scene stays as it is
        have hlaunched := launched_route hb.anonymous R r.name transport queryOptions
        refine ⟨⟨hb.launched hlaunched (fun hne => absurd rfl hne), h.base.armed, ?_⟩, ?_⟩
        · intro i hi
          cases some.inj hi
          refine ⟨Nat.le_refl _, fun _ => ⟨r, server, speculative, options, transport, queryOptions, h.rule, haction,
            hroute, ?_⟩⟩
          rw [evaluated, hlaunched.getElem?_last]
          rfl
        · have hscene := hb.scene_launched hlaunched rfl rfl rfl
          change Reaches R rules first x.walk.ruleIndex _
          rw [hscene]
          exact h.reach
      · exact h.sound_drain
    · split
      next hterminal =>
        rw [and_eq_true, beq_iff_eq] at hterminal
        obtain ⟨i, hi⟩ := isSome_iff_exists.mp hterminal.1
        refine sound_suspend h.base h.reach ⟨h.known, fun _ => ?_⟩
        obtain ⟨r', server', speculative', options', transport', queryOptions', hr', haction', hroute', he⟩ :=
          (h.base.terminal i hi).launched hterminal.2
        cases some.inj (h.rule.symm.trans hr')
        cases haction.symm.trans haction'
        cases some.inj (hroute.symm.trans hroute')
        rw [hi]
        exact ⟨_, he, hresult.symm⟩
      · exact sound_suspend h.base h.reach ⟨h.known, fun _ => hresult.symm⟩

theorem sound_act (hvalid : Ordered [] rules) (hfirst : ∀ t, first.named t = none) :
    (x.act R r).Sound R rules first := by
  unfold act
  split
  next options haction =>
    have hends : r.ends R x.walk.scene = none := by simp [h.ends_eq, Rule.final, haction]
    have hreach := h.reach.next h.rule hends
    have hpass : r.pass R x.walk.scene =
        { x.walk.scene with options := applyDNSRouteOptions x.walk.effectiveOptions options } := by
      simp only [Rule.pass, h.plain, h.holds, haction, Bool.not_false, Bool.and_self, if_true]
      rfl
    rw [hpass] at hreach
    exact ⟨h.base.moved (h.base.bound.same rfl rfl rfl rfl rfl) rfl h.base.armed rfl rfl, hreach⟩
  next haction => exact h.sound_evaluate hvalid hfirst haction
  next haction => exact h.sound_respond hvalid haction
  next haction => exact h.sound_route haction
  next haction => exact h.sound_final (by simp [Rule.final, haction])
  next haction => exact h.sound_final (by simp [Rule.final, haction])
  next haction =>
    split
    · exact h.sound_next (by simp [Rule.final, haction]) (by simp [Rule.pass, haction])
    · exact h.sound_drain
  next response haction => exact h.sound_final (by simp [Rule.final, haction])

end Walk.Takes

/-! ### Race rules -/

namespace Sys

variable {x : Sys τ ε ρ ι}

section
variable (hbase : x.walk.Base R rules) (hreach : Reaches R rules first x.walk.ruleIndex x.walk.scene)
include hbase hreach

theorem sound_sweep {inWalk : Bool} {otherwise : Sys τ ε ρ ι → Sys τ ε ρ ι}
    (hotherwise : ∀ kept, (∀ a ∈ kept, a ∈ x.walk.armedRules) →
      (otherwise { x with walk.armedRules := kept }).Sound R rules first) :
    (x.sweep R inWalk otherwise).Sound R rules first := by
  -- an exchange through a race rule need not have the sequential result
  have hrace : ∀ a ∈ x.walk.armedRules, Origin.Known rules (some (a.ruleIndex, a.rule)) ∧
      ¬Origin.Plain (some (a.ruleIndex, a.rule)) := by
    intro a ha
    obtain ⟨hr, hrule⟩ := hbase.armed a ha
    refine ⟨fun p hp => ?_, fun hplain => ?_⟩
    · cases mem_some_iff.mp hp
      exact hrule
    · have := hplain _ rfl
      rw [hr] at this
      cases this
  unfold sweep
  split
  next kept hsweep => exact hotherwise kept fun a ha => (sweepArmed_mem hsweep a ha)
  next kept a result hsweep =>
    obtain ⟨hmem, _, _⟩ := sweepArmed_commits hsweep
    obtain ⟨hknown, hplain⟩ := hrace a hmem
    exact ⟨hbase.disarm (sweepArmed_mem hsweep) _, hknown, fun hp => absurd hp hplain⟩
  next kept a p hsweep =>
    obtain ⟨hmem, _, hjudge⟩ := sweepArmed_commits hsweep
    obtain ⟨hknown, hplain⟩ := hrace a hmem
    rw [← (Armed.judge_pending hjudge).1] at hknown hplain
    split
    · refine sound_suspend (x := { x with walk.armedRules := [] }) (hbase.disarm (by simp) _) hreach ?_
      exact ⟨hknown, fun hp => absurd hp hplain⟩
    · exact ⟨hbase.disarm (sweepArmed_mem hsweep) _, hknown, fun hp => absurd hp hplain⟩

theorem sound_arm {r : Rule ρ ι} (hr : rules[x.walk.ruleIndex]? = some r) (hrace : r.race = true) :
    (x.arm r).Sound R rules first := by
  have harmed : ∀ (a : Armed ρ ι), a.rule = r → a.ruleIndex = x.walk.ruleIndex →
      Walk.Base R rules { x.walk with armedRules := x.walk.armedRules ++ [a] } := by
    intro a ha hindex
    refine ⟨hbase.bound.same rfl rfl rfl rfl rfl, ?_,
      fun i hi => ⟨(hbase.terminal i hi).index, (hbase.terminal i hi).launched⟩⟩
    intro b hmem
    rcases mem_append.mp hmem with hmem | hmem
    · exact hbase.armed b hmem
    · cases mem_singleton.mp hmem
      rw [ha, hindex]
      exact ⟨hrace, hr⟩
  unfold arm
  dsimp only
  split
  · exact ⟨harmed _ rfl rfl, r, ⟨hreach, hr⟩, hrace⟩
  · have hnext := hreach.next hr (by simp [Rule.ends, hrace])
    rw [show r.pass R x.walk.scene = x.walk.scene by simp [Rule.pass, hrace]] at hnext
    exact sound_next (harmed _ rfl rfl) hnext

end

end Sys

end

/-- No callback ran between the look of `settleDNSFutures` at a future and the test of it:
a tagged future that is tested is settled if it is done. -/
def Sys.calm (x : Sys τ ε ρ ι) (l : Label) : Bool :=
  match l, x.phase with
  | .advance, .testing (t :: _) _ => (x.walk.namedFutures t).all fun i => !x.walk.resolved i || x.walk.settledAt i
  | _, _ => true

section
variable {R : Router τ ε ρ ι} {rules : List (Rule ρ ι)} {first : Scene τ ε ρ} {x x' : Sys τ ε ρ ι}

section
variable (hvalid : Ordered [] rules) (hfirst : ∀ t, first.named t = none) (h : x.Sound R rules first)
include hvalid hfirst h

theorem Sys.Sound.advance (hcalm : x.calm .advance = true) (hstep : x.advance R rules = some x') :
    x'.Sound R rules first := by
  obtain ⟨hbase, hstands⟩ := h
  have hb := hbase.bound
  obtain ⟨w, phase, async⟩ := x
  simp only at hbase hstands hb
  cases advances hstep with
  | default hnone =>
    have hreach : Reaches R rules first w.ruleIndex w.scene := hstands
    have hknown : Origin.Known rules none := fun _ h => (Option.not_mem_none _ h).elim
    refine sound_suspend hbase hreach ⟨hknown, fun _ => ?_⟩
    rw [hreach.sequential, List.drop_eq_nil_of_le (List.getElem?_eq_none_iff.mp hnone), DNS.sequential]
    rfl
  | drain | speculated => exact sound_suspend (x := ⟨w, _, async⟩) hbase hstands trivial
  | bound r hr => exact ⟨hbase, hstands, hr⟩
  | plain r hr hbindings =>
    simp only [Rule.hasBindings, or_eq_false_iff, not_eq_false', List.isEmpty_iff] at hbindings
    refine ⟨hbase, ⟨hstands, hr⟩, ?_, ⟨?_, ?_⟩⟩
    · cases hrace : r.race with
      | false => rfl
      | true => simpa [hbindings] using r.race_bound hrace
    · simp [hbindings.1]
    · simp [hbindings.2]
  | settle k r =>
    exact Sys.Sound.later (x := ⟨w, .settling (k + 1) r, async⟩) ⟨hbase, hstands⟩ (w.later_settle k) (hb.settle k) async
  | race _ _ _ hrace => exact ⟨hbase, hstands, hrace⟩
  | test _ _ _ hrace => exact ⟨hbase, hstands, hrace, fun t ht => .inl ht⟩
  | awaitTag | awaitAnonymous => exact sound_suspend hbase hstands.1.1 trivial
  | tested t tags r hunresolved =>
    refine ⟨hbase, hstands.1, hstands.2.1, fun s hs => ?_⟩
    rcases hstands.2.2 s hs with hmem | hsettled
    · rcases mem_cons.mp hmem with rfl | hmem
      · -- the test was passed, so the future is done, and by then it had been filed
        refine .inr fun i hi => ?_
        simp [unresolved] at hunresolved
        simp only [calm] at hcalm
        rw [hi, all_some, hunresolved i hi] at hcalm
        simpa using hcalm
      · exact .inl hmem
    · exact .inr hsettled
  | ready r hunresolved =>
    refine ⟨hbase, hstands.1, hstands.2.1, ⟨fun t ht => ?_, fun hanonymous i hi => ?_⟩⟩
    · simpa using hstands.2.2 t ht
    · simp [unresolved] at hunresolved
      exact hunresolved hanonymous i hi
  | matched r hholds =>
    obtain ⟨hreach, hrace, hseen⟩ := hstands
    rw [hseen.matchOn_eq hb] at hholds
    exact ⟨hbase, hreach, hrace, hseen, hholds⟩
  | missed r hholds =>
    obtain ⟨⟨hreach, hr⟩, hrace, hseen⟩ := hstands
    rw [hseen.matchOn_eq hb] at hholds
    have hnext := hreach.next hr (by simp [Rule.ends, hholds])
    rw [show r.pass R w.scene = w.scene by simp [Rule.pass, hholds]] at hnext
    exact Sys.sound_next hbase hnext
  | act r =>
    obtain ⟨⟨hreach, hr⟩, hrace, hseen, hholds⟩ := hstands
    exact Walk.Takes.sound_act (x := ⟨w, .acting r, async⟩) ⟨hbase, hreach, hr, hrace, hseen, hholds⟩ hvalid hfirst
  | arm r => exact sound_arm hbase hstands.1.1 hstands.1.2 hstands.2
  | launched | resettled => exact ⟨hbase, hstands⟩
  | sweep =>
    obtain ⟨r, ⟨hreach, hr⟩, hrace⟩ := hstands
    refine sound_sweep hbase hreach fun kept hkept => ?_
    have hnext := hreach.next hr (by simp [Rule.ends, hrace])
    rw [show r.pass R w.scene = w.scene by simp [Rule.pass, hrace]] at hnext
    exact Sys.sound_next (hbase.disarm hkept _) hnext
  | resettle k s =>
    exact Sys.Sound.later (x := ⟨w, .resuming (k + 1) s, async⟩) ⟨hbase, hstands⟩ (w.later_settle k) (hb.settle k) async
  | resweep s =>
    refine sound_sweep hbase hstands.1 fun kept hkept => ?_
    have hkeep := hbase.disarm hkept w.wake
    cases s with
    | pending p => exact ⟨hkeep, Pending.Right.later hstands.2 fun _ _ he => he⟩
    | await | drain =>
      refine ⟨hkeep, ?_⟩
      dsimp only [resume]
      split
      · exact hstands.1
      · exact ⟨hstands.1, trivial⟩
  | wake => exact ⟨hbase.disarm (fun _ ha => ha) false, hstands.1, hstands.2.later fun _ _ he => he⟩
  | exchange p hfuture =>
    refine ⟨hbase, hstands.known, fun hplain => ?_⟩
    have := hstands.result hplain
    simpa [Pending.ComesTo, hfuture] using this
  | collect p i f hfuture hf =>
    refine ⟨hbase, hstands.known, fun hplain => ?_⟩
    have hcomes := hstands.result hplain
    simp only [Pending.ComesTo, hfuture, evaluated, hf, map_some, some.injEq] at hcomes
    obtain ⟨e, he, hres⟩ := hcomes
    rw [← hres, ← he]
    rfl

theorem Sys.Sound.step {l : Label} (hcalm : x.calm l = true) (hstep : x.step R rules l = some x') :
    x'.Sound R rules first := by
  cases l with
  | advance => exact h.advance hvalid hfirst hcalm hstep
  | complete i =>
    obtain ⟨f, hf, _, rfl⟩ := step_complete hstep
    exact h.later (later_setFuture { f with done := true } hf rfl rfl rfl id x.walk.wake)
      (h.base.bound.setFuture { f with done := true } hf rfl rfl rfl rfl x.walk.wake) x.async
  | wake i =>
    obtain ⟨f, hf, hdone, _, rfl⟩ := step_wake hstep
    exact h.later (later_setFuture { f with woken := true } hf rfl rfl hdone id true)
      (h.base.bound.setFuture { f with woken := true } hf rfl rfl hdone rfl true) x.async

end

theorem sound_start (options : QueryOptions) (async : Bool) :
    Sys.Sound R rules (.start options) ⟨.start options, .visiting, async⟩ := by
  refine ⟨⟨⟨?_, ?_, ?_, ?_, ?_, fun _ _ => rfl, ?_⟩, ?_, ?_⟩, .first⟩ <;> simp [Walk.start, tagOf, settledAt]

theorem sound_run {options : QueryOptions} (hvalid : Valid rules) {past : List (Sys τ ε ρ ι × Label)}
    (hrun : (machine R rules options).Run past x) (hcalm : System.Along (fun x l => x.calm l = true) past) :
    x.Sound R rules (.start options) := by
  refine hrun.invariant ?_ ?_ hcalm
  · rintro _ ⟨async, rfl⟩
    exact sound_start options async
  · exact fun _ _ _ h hl hs => h.step hvalid.ordered (fun _ => rfl) hl hs

end
end SingBox.DNS
