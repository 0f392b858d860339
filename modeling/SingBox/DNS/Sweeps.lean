import SingBox.DNS.Timing

/-!
# What a sweep judges

Where every exchange completes inside its launch or while the walk is suspended, a sweep
finds all complete exchanges filed. A race rule that is ready is then judged on the
responses it was bound to when it was armed, however much later the sweep comes.
-/
namespace SingBox.DNS

open SingBox.Lib Option

variable {τ ε ρ ι : Type}

/-! ### Exchanges that complete while the walk is suspended -/

/-- An exchange completes inside its launch, or while the walk is suspended and
`settleDNSFutures` has not looked at the future since. -/
def Sys.coarse (x : Sys τ ε ρ ι) : Label → Bool
  | .complete i =>
    match x.phase with
    | .launching _ => i + 1 == x.walk.futures.length
    | .resuming k _ => k ≤ i
    | .waiting _ | .finishing _ | .returned .. => true
    | _ => false
  | _ => true

namespace Walk

variable {w w' : Walk τ ε ρ ι} {i k : Nat}

/-- The first `k` futures are filed as far as they are complete. -/
def FiledTo (w : Walk τ ε ρ ι) (k : Nat) : Prop := ∀ i < k, w.resolved i = true → w.settledAt i = true

def Filed (w : Walk τ ε ρ ι) : Prop := ∀ i, w.resolved i = true → w.settledAt i = true

theorem filedTo_zero (w : Walk τ ε ρ ι) : w.FiledTo 0 := fun i hi => absurd hi (Nat.not_lt_zero i)

theorem FiledTo.settle (h : w.FiledTo k) : (w.settle k).FiledTo (k + 1) := by
  intro i hi hr
  rcases Nat.lt_succ_iff_lt_or_eq.mp hi with hi | rfl
  · rw [settle_resolved] at hr
    exact (later_settle w k).settledAt i (h i hi hr)
  · exact settle_settled hr

theorem FiledTo.filed (h : w.FiledTo k) (hk : ¬k < w.futures.length) : w.Filed := by
  intro i hr
  have := lt_of_resolved hr
  exact h i (by omega) hr

end Walk

/-- What has been filed where the walk stands. -/
def Sys.Filed (x : Sys τ ε ρ ι) : Prop :=
  match x.phase with
  | .settling k _ | .resuming k _ => x.walk.FiledTo k
  | .testing .. | .arming _ | .sweeping | .resweeping _ => x.walk.Filed
  | _ => True

/-! ### Filing along a run -/

section
variable {R : Router τ ε ρ ι} {rules : List (Rule ρ ι)} {first : Scene τ ε ρ} {x x' : Sys τ ε ρ ι} {r : Rule ρ ι}

theorem Sys.filed_suspend (x : Sys τ ε ρ ι) (s : Suspension τ ρ ι) : (x.suspend s).Filed := by
  rcases x.suspend_cases s with heq | ⟨p, _, _, heq⟩
  · rw [heq]
    exact x.walk.filedTo_zero
  · rw [heq]
    trivial

theorem Sys.Acts.filed (h : x.Acts R r x') : x'.Filed := by
  cases h with
  | await | drain | exchange => exact x.filed_suspend _
  | _ => trivial

theorem Sys.filed_sweep {inWalk : Bool} {otherwise : Sys τ ε ρ ι → Sys τ ε ρ ι}
    (hotherwise : ∀ kept, (otherwise { x with walk.armedRules := kept }).Filed) :
    (x.sweep R inWalk otherwise).Filed := by
  unfold sweep
  split
  · exact hotherwise _
  · trivial
  · split
    · exact filed_suspend _ _
    · trivial

theorem Sys.Filed.advance (h : x.Filed) (hstep : x.advance R rules = some x') : x'.Filed := by
  obtain ⟨w, phase, async⟩ := x
  cases advances hstep with
  | default | drain | awaitTag | awaitAnonymous | speculated => exact Sys.filed_suspend _ _
  | bound | wake => exact Walk.filedTo_zero _
  | settle | resettle => exact Walk.FiledTo.settle h
  | race _ _ hk | test _ _ hk | resettled _ _ hk => exact Walk.FiledTo.filed h hk
  | tested => exact h
  | act rule => exact (Sys.acts _ rule).filed
  | arm =>
    have hfiled : w.Filed := h
    unfold Sys.arm
    dsimp only
    split
    · exact hfiled
    · trivial
  | sweep => exact Sys.filed_sweep fun kept => trivial
  | resweep s =>
    refine Sys.filed_sweep fun kept => ?_
    cases s with
    | pending p => trivial
    | await i =>
      dsimp only [Sys.resume]
      cases Walk.resolved _ i <;> trivial
    | drain =>
      dsimp only [Sys.resume]
      cases kept.isEmpty <;> trivial
  | plain | ready | matched | missed | launched | exchange | collect => trivial

variable {i : Nat} {f : Future τ ε ρ} {l : Label}

/-- A callback changes a future that is not looked at any more. -/
theorem Sys.Filed.complete (h : x.Filed) (hf : x.walk.futures[i]? = some f) (hcoarse : x.coarse (.complete i) = true) :
    (x.setFuture i { f with done := true }).Filed := by
  obtain ⟨w, phase, async⟩ := x
  cases phase with
  | resuming k s =>
    have hki : k ≤ i := by simpa [Sys.coarse] using hcoarse
    intro j hj hr
    have hother : (w.futures.set i { f with done := true })[j]? = w.futures[j]? :=
      List.getElem?_set_ne (by omega)
    have hs : w.settledAt j = true := h j hj ((congrArg (Option.any Future.done) hother).symm.trans hr)
    exact (congrArg (Option.any Future.settled) hother).trans hs
  | settling | testing | arming | sweeping | resweeping => cases hcoarse
  | _ => trivial

theorem Sys.Filed.wake (h : x.Filed) (hf : x.walk.futures[i]? = some f) :
    Sys.Filed { x.setFuture i { f with woken := true } with walk.wake := true } := by
  obtain ⟨w, phase, async⟩ := x
  have hsame : ∀ (p : Future τ ε ρ → Bool), p { f with woken := true } = p f → ∀ j : Nat,
      (w.futures.set i { f with woken := true })[j]?.any p = w.futures[j]?.any p := by
    intro p hp j
    rw [Walk.getElem?_setFuture _ hf]
    by_cases hj : j = i
    · subst hj
      simpa [show w.futures[j]? = some f from hf] using hp
    · simp [hj]
  have hfiled : ∀ j, (w.resolved j = true → w.settledAt j = true) →
      Walk.resolved { w with futures := w.futures.set i { f with woken := true }, wake := true } j = true →
      Walk.settledAt { w with futures := w.futures.set i { f with woken := true }, wake := true } j = true := by
    intro j hj hr
    rw [Walk.resolved, hsame Future.done rfl] at hr
    rw [Walk.settledAt, hsame Future.settled rfl]
    exact hj hr
  cases phase with
  | settling | resuming => exact fun j hj => hfiled j (h j hj)
  | testing | arming | sweeping | resweeping => exact fun j => hfiled j (h j)
  | _ => trivial

theorem Sys.Filed.step (h : x.Filed) (hcoarse : x.coarse l = true) (hstep : x.step R rules l = some x') :
    x'.Filed := by
  cases l with
  | advance => exact h.advance hstep
  | complete i =>
    obtain ⟨f, hf, _, rfl⟩ := Sys.step_complete hstep
    exact h.complete hf hcoarse
  | wake i =>
    obtain ⟨f, hf, _, _, rfl⟩ := Sys.step_wake hstep
    exact h.wake hf

/-- A future that is tested has been filed if it is complete. -/
theorem Sys.Filed.calm (h : x.Filed) : x.calm l = true := by
  obtain ⟨w, phase, async⟩ := x
  unfold Sys.calm
  split
  next hphase =>
    cases hphase
    rw [all_eq_true]
    intro i _
    cases hr : w.resolved i with
    | false => rfl
    | true => exact h i hr
  · rfl

theorem filed_run {options : QueryOptions} {past : List (Sys τ ε ρ ι × Label)}
    (hrun : (machine R rules options).Run past x) (hcoarse : System.Along (fun x l => x.coarse l = true) past) :
    x.Filed ∧ System.Along (fun x l => x.calm l = true) past := by
  refine hrun.invariant_past (I := fun past x => x.Filed ∧ System.Along (fun x l => x.calm l = true) past) ?_ ?_ hcoarse
  · rintro _ ⟨async, rfl⟩
    exact ⟨trivial, System.along_nil _⟩
  · rintro past x x' l - ⟨hfiled, hcalm⟩ hl hstep
    exact ⟨hfiled.step hl hstep, (System.along_cons _ x l past).mpr ⟨hfiled.calm, hcalm⟩⟩

end

/-! ### Armed rules -/

/-- What the rule is bound to is the same; exchanges may have been launched and completed. -/
structure Walk.Keeps (w w' : Walk τ ε ρ ι) (r : Rule ρ ι) : Prop where
  named : ∀ t ∈ r.matchResponseTags, w'.namedFutures t = w.namedFutures t
  evaluated : ∀ i < w.futures.length, w'.evaluated i = w.evaluated i
  resolved : ∀ i, w.resolved i = true → w'.resolved i = true
  length : w.futures.length ≤ w'.futures.length

namespace Walk

variable {w w' : Walk τ ε ρ ι} {r : Rule ρ ι}

theorem Later.keeps (h : w.Later w') : w.Keeps w' r where
  named t _ := congrFun h.namedFutures t
  evaluated i _ := h.evaluated i
  resolved := h.resolved
  length := Nat.le_of_eq h.length.symm

theorem Launched.keeps {f : Future τ ε ρ} (h : Launched w f w') (htag : f.tag ≠ "" → f.tag ∉ r.matchResponseTags) :
    w.Keeps w' r where
  named := by
    intro t ht
    rw [h.namedFutures]
    split
    · rfl
    next hne =>
      refine Function.update_of_ne (fun he => ?_) _ _
      rw [he] at ht
      exact htag hne ht
  evaluated i hi := h.evaluated hi
  resolved i hr := h.resolved hr
  length := by
    rw [h.futures, List.length_append]
    omega

end Walk

section
variable (R : Router τ ε ρ ι) (rules : List (Rule ρ ι)) (first : Scene τ ε ρ)

/-- An armed rule, the scene it found and what it still waits for. -/
structure Armed.Waits (w : Walk τ ε ρ ι) (a : Armed ρ ι) (sc : Scene τ ε ρ) : Prop where
  reach : Reaches R rules first a.ruleIndex sc
  options : a.options = sc.options
  binds : a.bindsAnonymous = a.rule.matchResponseAnonymous
  named : ∀ t ∈ a.rule.matchResponseTags, w.scene.named t = sc.named t
  anonymous : a.bindsAnonymous = true → a.anonymousFuture.bind w.evaluated = sc.anonymous
  launched : ∀ i, a.anonymousFuture = some i → i < w.futures.length
  futures : ∀ i ∈ a.futures, (∃ t ∈ a.rule.matchResponseTags, w.namedFutures t = some i) ∨ a.anonymousFuture = some i
  tags : ∀ t ∈ a.rule.matchResponseTags, ∀ i, w.namedFutures t = some i → i ∈ a.futures ∨ w.resolved i = true
  future : ∀ i, a.anonymousFuture = some i → i ∈ a.futures ∨ w.resolved i = true

def Phase.sweeps : Phase τ ε ρ ι → Bool
  | .sweeping | .resweeping _ => true
  | _ => false

/-- The sweep that `x` makes judges the armed rule `a`, which found `sc`: all responses it is
bound to are in. -/
structure Sys.Judges (x : Sys τ ε ρ ι) (a : Armed ρ ι) (sc : Scene τ ε ρ) : Prop where
  sweeps : x.phase.sweeps = true
  armed : a ∈ x.walk.armedRules
  ready : a.ready x.walk = true
  reach : Reaches R rules first a.ruleIndex sc
  options : a.options = sc.options
  tags : ∀ t ∈ a.rule.matchResponseTags, ∀ i, x.walk.namedFutures t = some i → x.walk.resolved i = true
  future : ∀ i, a.anonymousFuture = some i → x.walk.resolved i = true
  named : ∀ t ∈ a.rule.matchResponseTags, x.walk.namedResponses t = sc.namedResponse t
  anonymous : a.rule.matchResponseAnonymous = true → a.response x.walk = sc.anonymousResponse

end

/-- The result an armed rule commits to. -/
def Commit.comesTo (R : Router τ ε ρ ι) : Commit τ ε ρ ι → Result τ ε ρ
  | .result r => r
  | .pending p => p.exchanged R

/-- The server of the rule's route is missing or skipped. -/
def Rule.Unroutable (R : Router τ ε ρ ι) (r : Rule ρ ι) (sc : Scene τ ε ρ) : Prop :=
  ∃ server speculative options, r.action = .route server speculative options ∧
    R.resolveDNSRoute server options sc.options = none

theorem Rule.unroutable_iff {R : Router τ ε ρ ι} {r : Rule ρ ι} {sc : Scene τ ε ρ} (hrace : r.race = true) :
    r.Unroutable R sc ↔ r.final R sc = none := by
  constructor
  · rintro ⟨server, speculative, options, haction, hroute⟩
    simp [final, haction, hroute]
  intro hfinal
  have hkind := r.race_final hrace
  have hreply := r.not_reply
  cases haction : r.action with
  | routeOptions | evaluate => simp [haction, Action.isFinal] at hkind
  | respond => simp [r.final_respond R sc haction] at hfinal
  | route server speculative options =>
    refine ⟨server, speculative, options, haction, ?_⟩
    simpa [final, haction] using hfinal
  | reject method =>
    cases method with
    | default | drop => simp [final, haction] at hfinal
    | reply => exact absurd haction hreply
  | predefined response => simp [final, haction] at hfinal

section
variable {R : Router τ ε ρ ι} {rules : List (Rule ρ ι)} {first : Scene τ ε ρ} {x : Sys τ ε ρ ι}
  {w w' : Walk τ ε ρ ι} {a : Armed ρ ι} {sc : Scene τ ε ρ}

theorem Sys.Judges.matchOn_eq (h : x.Judges R rules first a sc) :
    a.rule.matchOn (a.response x.walk) x.walk.namedResponses = a.rule.holds sc :=
  a.rule.matchOn_bound _ _ _ _ h.anonymous h.named

namespace Armed.Waits

theorem keeps (h : a.Waits R rules first w sc) (hb : w.Bound) (hk : w.Keeps w' a.rule) :
    a.Waits R rules first w' sc where
  reach := h.reach
  options := h.options
  binds := h.binds
  named := by
    intro t ht
    rw [← h.named t ht]
    change (w'.namedFutures t).bind w'.evaluated = (w.namedFutures t).bind w.evaluated
    rw [hk.named t ht]
    cases hi : w.namedFutures t with
    | none => rfl
    | some i => exact hk.evaluated i (hb.lt hi)
  anonymous := by
    intro hbinds
    rw [← h.anonymous hbinds]
    cases hi : a.anonymousFuture with
    | none => rfl
    | some i => exact hk.evaluated i (h.launched i hi)
  launched i hi := Nat.lt_of_lt_of_le (h.launched i hi) hk.length
  futures := by
    intro i hi
    rcases h.futures i hi with ⟨t, ht, hnamed⟩ | hfuture
    · exact .inl ⟨t, ht, (hk.named t ht).trans hnamed⟩
    · exact .inr hfuture
  tags := by
    intro t ht i hi
    rw [hk.named t ht] at hi
    exact (h.tags t ht i hi).imp_right (hk.resolved i)
  future i hi := (h.future i hi).imp_right (hk.resolved i)

section
variable (h : a.Waits R rules first w sc) (hready : a.ready w = true)
include h hready

variable {t : String} {i : Nat}

theorem resolved_tag (ht : t ∈ a.rule.matchResponseTags) (hi : w.namedFutures t = some i) :
    w.resolved i = true :=
  (h.tags t ht i hi).elim (List.all_eq_true.mp hready i) id

theorem resolved_future (hi : a.anonymousFuture = some i) : w.resolved i = true :=
  (h.future i hi).elim (List.all_eq_true.mp hready i) id

variable (hb : w.Bound) (hfiled : w.Filed)
include hb hfiled

theorem namedResponse_eq (ht : t ∈ a.rule.matchResponseTags) :
    w.namedResponses t = sc.namedResponse t := by
  rw [hb.namedResponse_eq fun i hi => hfiled i (h.resolved_tag hready ht hi), Scene.namedResponse, h.named t ht]
  rfl

omit hb hfiled in
theorem response_eq (hanonymous : a.rule.matchResponseAnonymous = true) : a.response w = sc.anonymousResponse := by
  have hbinds := h.binds.trans hanonymous
  rw [response, if_pos hbinds, Scene.anonymousResponse, ← h.anonymous hbinds]
  cases hi : a.anonymousFuture with
  | none => rfl
  | some i => exact Walk.view_of_resolved (h.resolved_future hready hi)

/-- What the rule comes to is what it would come to where it was armed. -/
theorem commit_eq (hvalid : Ordered [] rules) (hrule : rules[a.ruleIndex]? = some a.rule) (hrace : a.rule.race = true)
    (hidle : a.futures = [] → a.bindsAnonymous = true → a.anonymousFuture = w.anonymousFuture) :
    (a.commit R w).map (Commit.comesTo R) = a.rule.final R sc := by
  unfold commit
  split
  next haction =>
    rw [a.rule.final_respond R sc haction, Rule.responded]
    by_cases htag : a.rule.matchResponseTag ≠ ""
    · have hmem := a.rule.tag_mem htag
      have hanswer := hb.responding_named fun i hi => hfiled i (h.resolved_tag hready hmem hi)
      simp only [if_pos htag]
      rw [← h.named _ hmem, ← hanswer]
      cases w.namedResponses a.rule.matchResponseTag <;> rfl
    · -- an untagged answer: the rule is bound to the untagged response and to nothing else
      have htags := hvalid.respond _ (List.mem_of_getElem? hrule) (by rw [haction]; rfl) (by simpa using htag)
      have hbinds : a.bindsAnonymous = true := by
        rw [h.binds]
        exact (a.rule.race_bound hrace).resolve_left fun hne => hne htags
      have hanswer := Walk.responding_future fun i hi => h.resolved_future hready (i := i) hi
      simp only [if_neg htag]
      rw [← h.anonymous hbinds, ← hanswer]
      cases hi : a.anonymousFuture with
      | some i =>
        simp only [bind_some]
        cases w.view i <;> rfl
      | none =>
        -- nothing was bound then, so the rule is judged at once
        have hempty : a.futures = [] := by
          refine List.eq_nil_iff_forall_not_mem.mpr fun i hmem => ?_
          rcases h.futures i hmem with ⟨t, ht, _⟩ | hfuture
          · rw [htags] at ht
            cases ht
          · rw [hi] at hfuture
            cases hfuture
        have hnone : w.anonymousFuture = none := (hidle hempty hbinds).symm.trans hi
        simp only [Walk.anonymousResponse, hnone, bind_none]
        rfl
  next haction =>
    simp only [Rule.final, haction, h.options, map_map]
    rfl
  all_goals
    rename_i haction
    simp only [Rule.final, haction]
    rfl

end

/-- Where the exchanges that are complete have been filed, a rule that is ready is judged. -/
theorem judges (h : a.Waits R rules first x.walk sc) (hb : x.walk.Bound) (hfiled : x.walk.Filed)
    (hsweeps : x.phase.sweeps = true) (harmed : a ∈ x.walk.armedRules) (hready : a.ready x.walk = true) :
    x.Judges R rules first a sc where
  sweeps := hsweeps
  armed := harmed
  ready := hready
  reach := h.reach
  options := h.options
  tags _ ht _ hi := h.resolved_tag hready ht hi
  future _ hi := h.resolved_future hready hi
  named _ ht := h.namedResponse_eq hready hb hfiled ht
  anonymous ha := h.response_eq hready ha

end Armed.Waits

end
end SingBox.DNS
