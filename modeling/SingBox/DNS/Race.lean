import SingBox.DNS.Sweeps
import SingBox.DNS.Outcome

/-!
# Race rules are decided first

The exchange ends through a rule without race, or at the default server, only after every
race rule before has been judged on its responses and was not taken. Where a race rule
ends it, that rule is the first of those a sweep found ready, matching and with a server.
-/
namespace SingBox.DNS

open SingBox.Lib List Option Bool

variable {τ ε ρ ι : Type}

section
variable (R : Router τ ε ρ ι) (rules : List (Rule ρ ι)) (first : Scene τ ε ρ)
  (past : List (Sys τ ε ρ ι × Label))

/-- The race rule `r` at place `j` was judged with all its responses in, and not taken. -/
def PassedOver (j : Nat) (r : Rule ρ ι) : Prop :=
  ∃ e ∈ past, ∃ a sc, e.1.Judges R rules first a sc ∧ a.ruleIndex = j ∧ a.rule = r ∧
    (r.holds sc = false ∨ r.Unroutable R sc)

/-- The race rule `r` at place `i` was judged and came to `result`, and no other rule that the
sweep could have taken stands before it. -/
def Won (i : Nat) (r : Rule ρ ι) (result : Result τ ε ρ) : Prop :=
  ∃ e ∈ past, ∃ a sc, e.1.Judges R rules first a sc ∧ a.ruleIndex = i ∧ a.rule = r ∧ r.holds sc = true ∧
    r.final R sc = some result ∧
    ∀ b scb, e.1.Judges R rules first b scb → b.rule.holds scb = true → ¬b.rule.Unroutable R scb → i ≤ b.ruleIndex

/-- The walk goes on. Every race rule it passed is armed, or was judged and not taken; `swept` says
that the rule where it stands counts as passed. -/
structure Walk.Standing (w : Walk τ ε ρ ι) (swept : Bool) : Prop where
  waits : ∀ a ∈ w.armedRules, ∃ sc, a.Waits R rules first w sc
  idle : ∀ a ∈ w.armedRules, a.futures = [] → swept = true ∧
    (a.bindsAnonymous = true → a.anonymousFuture = w.anonymousFuture)
  sorted : w.armedRules.Pairwise fun a b => a.ruleIndex < b.ruleIndex
  below : ∀ a ∈ w.armedRules, a.ruleIndex < w.ruleIndex + swept.toNat
  passed : ∀ j r, j < w.ruleIndex + swept.toNat → rules[j]? = some r → r.race = true →
    (∃ a ∈ w.armedRules, a.ruleIndex = j) ∨ PassedOver R rules first past j r

/-- The exchange is to end through `o`, which the walk reached at or before rule `n`. -/
structure Origin.Decided (o : Origin ρ ι) (n : Nat) (result : Result τ ε ρ) : Prop where
  plain : o.Plain → ∀ j r, (∀ p ∈ o, j < p.1) → rules[j]? = some r → r.race = true →
    PassedOver R rules first past j r
  race : ∀ i r, o = some (i, r) → r.race = true → i ≤ n ∧ Won R rules first past i r result

structure Pending.Decided (p : Pending τ ρ ι) (n : Nat) : Prop where
  origin : p.origin.Decided R rules first past n (p.exchanged R)
  future : ¬p.origin.Plain → p.future = none

/-- What is settled where the exchange stands. -/
def Sys.Fate (x : Sys τ ε ρ ι) : Prop :=
  match x.phase with
  | .resuming _ (.pending p) | .resweeping (.pending p) | .waiting (.pending p) =>
    x.walk.armedRules = [] ∧ p.Decided R rules first past x.walk.ruleIndex
  | .finishing p => p.Decided R rules first past x.walk.ruleIndex
  | .returned origin result => origin.Decided R rules first past x.walk.ruleIndex result
  | .sweeping => x.walk.Standing R rules first past true
  | _ => x.walk.Standing R rules first past false

end

section
variable {R : Router τ ε ρ ι} {rules : List (Rule ρ ι)} {first : Scene τ ε ρ} {past : List (Sys τ ε ρ ι × Label)}
  {e : Sys τ ε ρ ι × Label} {x x' : Sys τ ε ρ ι} {w w' : Walk τ ε ρ ι} {swept : Bool}

theorem PassedOver.later {j : Nat} {r : Rule ρ ι} (h : PassedOver R rules first past j r) :
    PassedOver R rules first (e :: past) j r := by
  obtain ⟨e', he', rest⟩ := h
  exact ⟨e', mem_cons_of_mem _ he', rest⟩

variable {n : Nat}

theorem Origin.Decided.later {o : Origin ρ ι} {result : Result τ ε ρ} (h : o.Decided R rules first past n result) :
    o.Decided R rules first (e :: past) n result where
  plain hplain j r hj hr hrace := (h.plain hplain j r hj hr hrace).later
  race := by
    intro i r ho hrace
    obtain ⟨hle, e', he', rest⟩ := h.race i r ho hrace
    exact ⟨hle, e', mem_cons_of_mem _ he', rest⟩

theorem Pending.Decided.later {p : Pending τ ρ ι} (h : p.Decided R rules first past n) :
    p.Decided R rules first (e :: past) n :=
  ⟨h.origin.later, h.future⟩

namespace Walk.Standing

theorem later (h : w.Standing R rules first past swept) (hb : w.Bound) (hl : w.Later w') :
    w'.Standing R rules first (e :: past) swept := by
  constructor
  · intro a ha
    rw [hl.armedRules] at ha
    obtain ⟨sc, hw⟩ := h.waits a ha
    exact ⟨sc, hw.keeps hb hl.keeps⟩
  · rw [hl.armedRules, hl.anonymousFuture]
    exact h.idle
  · rw [hl.armedRules]
    exact h.sorted
  · rw [hl.armedRules, hl.ruleIndex]
    exact h.below
  · intro j r hj hr hrace
    rw [hl.ruleIndex] at hj
    rw [hl.armedRules]
    exact (h.passed j r hj hr hrace).imp_right PassedOver.later

/-- The walk launches an exchange or moves on from a rule without race. -/
theorem moved (h : w.Standing R rules first past false) (hb : w.Bound)
    (hkeeps : ∀ a ∈ w.armedRules, w.Keeps w' a.rule) (harmed : w'.armedRules = w.armedRules)
    (hle : w.ruleIndex ≤ w'.ruleIndex)
    (hpassed : ∀ j r, j < w'.ruleIndex → rules[j]? = some r → r.race = true → j < w.ruleIndex) :
    w'.Standing R rules first (e :: past) false := by
  constructor
  · intro a ha
    rw [harmed] at ha
    obtain ⟨sc, hw⟩ := h.waits a ha
    exact ⟨sc, hw.keeps hb (hkeeps a ha)⟩
  · intro a ha hempty
    rw [harmed] at ha
    exact absurd (h.idle a ha hempty).1 false_ne_true
  · rw [harmed]
    exact h.sorted
  · intro a ha
    rw [harmed] at ha
    exact lt_of_lt_of_le (h.below a ha) hle
  · intro j r hj hr hrace
    rw [harmed]
    exact (h.passed j r (hpassed j r hj hr hrace) hr hrace).imp_right PassedOver.later

/-- No armed rule is left, so the race rules passed were all judged. -/
theorem decided (h : w.Standing R rules first past false) (harmed : w.armedRules = []) {o : Origin ρ ι}
    (hplain : o.Plain) (ho : ∀ j r, (∀ p ∈ o, j < p.1) → rules[j]? = some r → j < w.ruleIndex) (result : Result τ ε ρ) :
    o.Decided R rules first (e :: past) w.ruleIndex result where
  plain := by
    intro _ j r hj hr hrace
    rcases h.passed j r (ho j r hj hr) hr hrace with ⟨a, ha, _⟩ | hover
    · rw [harmed] at ha
      cases ha
    · exact hover.later
  race := by
    intro i r hi hrace
    have := hplain _ hi
    rw [hrace] at this
    cases this

end Walk.Standing

/-! ### A rule is armed -/

variable {r : Rule ρ ι}

/-- A rule that is armed waits for what it is bound to. -/
theorem Armed.waits_arm (hb : x.walk.Bound) (hreach : Reaches R rules first x.walk.ruleIndex x.walk.scene) :
    Armed.Waits R rules first x.walk
      { ruleIndex := x.walk.ruleIndex
        rule := r
        futures := x.pendingFutures r
        anonymousFuture := if r.matchResponseAnonymous then x.walk.anonymousFuture else none
        bindsAnonymous := r.matchResponseAnonymous
        options := x.walk.effectiveOptions } x.walk.scene := by
  have hfuture : ∀ i, (if r.matchResponseAnonymous then x.walk.anonymousFuture else none) = some i →
      r.matchResponseAnonymous = true ∧ x.walk.anonymousFuture = some i := by
    intro i hi
    cases hr : r.matchResponseAnonymous with
    | true => exact ⟨rfl, by simpa [hr] using hi⟩
    | false => simp [hr] at hi
  constructor
  · exact hreach
  · rfl
  · rfl
  · exact fun t _ => rfl
  · intro hbinds
    have hbinds : r.matchResponseAnonymous = true := hbinds
    simp only [hbinds, if_true]
    rfl
  · exact fun i hi => hb.anonymous i (hfuture i hi).2
  · intro i hi
    rcases (Sys.mem_pendingFutures.mp hi).1 with hnamed | ⟨hr, hi⟩
    · exact .inl hnamed
    · exact .inr (by simpa [hr] using hi)
  · intro t ht i hi
    cases hdone : x.walk.resolved i with
    | true => exact .inr rfl
    | false => exact .inl (Sys.mem_pendingFutures.mpr ⟨.inl ⟨t, ht, hi⟩, hdone⟩)
  · intro i hi
    cases hdone : x.walk.resolved i with
    | true => exact .inr rfl
    | false => exact .inl (Sys.mem_pendingFutures.mpr ⟨.inr (hfuture i hi), hdone⟩)

theorem Walk.Standing.arm (h : w.Standing R rules first past false) (hb : w.Bound) {a : Armed ρ ι} {sc : Scene τ ε ρ}
    (hw : a.Waits R rules first w sc) (hindex : a.ruleIndex = w.ruleIndex)
    (hw' : w'.armedRules = w.armedRules ++ [a]) (hkeeps : ∀ b : Armed ρ ι, w.Keeps w' b.rule)
    (hidle : a.futures = [] → swept = true ∧ (a.bindsAnonymous = true → a.anonymousFuture = w'.anonymousFuture))
    (hn : w'.ruleIndex + swept.toNat = w.ruleIndex + 1) : w'.Standing R rules first (e :: past) swept := by
  constructor
  · intro b hmem
    rw [hw'] at hmem
    rcases mem_append.mp hmem with hmem | hmem
    · obtain ⟨sc', hw⟩ := h.waits b hmem
      exact ⟨sc', hw.keeps hb (hkeeps b)⟩
    · cases mem_singleton.mp hmem
      exact ⟨sc, hw.keeps hb (hkeeps a)⟩
  · intro b hmem hempty
    rw [hw'] at hmem
    rcases mem_append.mp hmem with hmem | hmem
    · exact absurd (h.idle b hmem hempty).1 false_ne_true
    · cases mem_singleton.mp hmem
      exact hidle hempty
  · rw [hw', pairwise_append]
    refine ⟨h.sorted, pairwise_singleton _ _, fun b hmem c hc => ?_⟩
    cases mem_singleton.mp hc
    rw [hindex]
    exact h.below b hmem
  · intro b hmem
    rw [hw'] at hmem
    rw [hn]
    rcases mem_append.mp hmem with hmem | hmem
    · exact Nat.lt_succ_of_lt (h.below b hmem)
    · cases mem_singleton.mp hmem
      omega
  · intro j r hj hr hrace
    rw [hn] at hj
    rw [hw']
    rcases Nat.lt_succ_iff_lt_or_eq.mp hj with hj | rfl
    · rcases h.passed j r hj hr hrace with ⟨b, hmem, hb⟩ | hover
      · exact .inl ⟨b, mem_append_left _ hmem, hb⟩
      · exact .inr hover.later
    · exact .inl ⟨a, mem_append_right _ (mem_singleton_self a), hindex⟩

theorem Sys.fate_arm (h : x.walk.Standing R rules first past false) (hb : x.walk.Bound)
    (hreach : Reaches R rules first x.walk.ruleIndex x.walk.scene) : (x.arm r).Fate R rules first (e :: past) := by
  have hw := Armed.waits_arm (r := r) hb hreach
  unfold Sys.arm
  dsimp only
  split
  · -- nothing to wait for: a sweep follows at once
    refine Walk.Standing.arm h hb hw rfl rfl (fun b => ⟨fun _ _ => rfl, fun _ _ => rfl, fun _ hi => hi, le_refl _⟩)
      (fun _ => ⟨rfl, fun hbinds => ?_⟩) rfl
    have hbinds : r.matchResponseAnonymous = true := hbinds
    simp only [hbinds, if_true]
  next hpending =>
    refine Walk.Standing.arm h hb hw rfl rfl (fun b => ⟨fun _ _ => rfl, fun _ _ => rfl, fun _ hi => hi, le_refl _⟩)
      (fun hempty => ?_) rfl
    exact absurd (isEmpty_iff.mpr hempty) hpending

/-! ### A sweep -/

section
variable (hvalid : Ordered [] rules) (hbase : x.walk.Base R rules) (hfiled : x.walk.Filed)
  (hsweeps : x.phase.sweeps = true) (h : x.walk.Standing R rules first past swept)
include hvalid hbase hfiled hsweeps h

variable {a : Armed ρ ι} {kept : List (Armed ρ ι)} {l : Label}

/-- A rule that is ready is judged, and comes to what it would come to where it was armed. -/
theorem Walk.Standing.judge (ha : a ∈ x.walk.armedRules) (hready : a.ready x.walk = true) :
    ∃ sc, x.Judges R rules first a sc ∧
      (a.judge R x.walk).map (Commit.comesTo R) = if a.rule.holds sc then a.rule.final R sc else none := by
  obtain ⟨sc, hw⟩ := h.waits a ha
  have hj := hw.judges hbase.bound hfiled hsweeps ha hready
  refine ⟨sc, hj, ?_⟩
  rw [Armed.judge, hj.matchOn_eq]
  obtain ⟨hrace, hrule⟩ := hbase.armed a ha
  split
  · exact hw.commit_eq hready hbase.bound hfiled hvalid hrule hrace fun hempty => (h.idle a ha hempty).2
  · rfl

/-- The rules that were ready are judged, the others stay armed. -/
theorem Walk.Standing.sweep (hsweep : sweepArmed R x.walk x.walk.armedRules = (kept, none))
    (hw' : w'.armedRules = kept) (hkeeps : ∀ a : Armed ρ ι, x.walk.Keeps w' a.rule)
    (hn : w'.ruleIndex = x.walk.ruleIndex + swept.toNat) :
    w'.Standing R rules first ((x, l) :: past) false := by
  obtain ⟨hkept, hnone⟩ := sweepArmed_none hsweep
  have hmem : ∀ a ∈ w'.armedRules, a ∈ x.walk.armedRules ∧ a.ready x.walk = false := by
    intro a ha
    rw [hw', hkept] at ha
    exact ⟨(mem_filter.mp ha).1, by simpa using (mem_filter.mp ha).2⟩
  constructor
  · intro a ha
    obtain ⟨sc, hw⟩ := h.waits a (hmem a ha).1
    exact ⟨sc, hw.keeps hbase.bound (hkeeps a)⟩
  · intro a ha hempty
    have hready := (hmem a ha).2
    simp [Armed.ready, hempty] at hready
  · rw [hw', hkept]
    exact h.sorted.filter _
  · intro a ha
    rw [hn]
    exact h.below a (hmem a ha).1
  · intro j r hj hr hrace
    rw [hn] at hj
    rcases h.passed j r hj hr hrace with ⟨a, ha, rfl⟩ | hover
    · cases hready : a.ready x.walk with
      | false =>
        refine .inl ⟨a, ?_, rfl⟩
        rw [hw', hkept]
        exact mem_filter.mpr ⟨ha, by simp [hready]⟩
      | true =>
        obtain ⟨sc, hj, hcommit⟩ := h.judge hvalid hbase hfiled hsweeps ha hready
        rw [hnone a ha hready, map_none] at hcommit
        have heq : a.rule = r := some.inj ((hbase.armed a ha).2.symm.trans hr)
        refine .inr ⟨_, mem_cons_self, a, sc, hj, rfl, heq, ?_⟩
        rw [← heq, Rule.unroutable_iff (hbase.armed a ha).1]
        cases hholds : a.rule.holds sc with
        | false => exact .inl rfl
        | true => exact .inr (by simpa [hholds] using hcommit.symm)
    · exact .inr hover.later

/-- The rule that commits is the first that could be taken. -/
theorem Walk.Standing.won {commit : Commit τ ε ρ ι}
    (hsweep : sweepArmed R x.walk x.walk.armedRules = (kept, some (a, commit))) :
    a.rule.race = true ∧ a.ruleIndex ≤ x.walk.ruleIndex ∧
      Won R rules first ((x, l) :: past) a.ruleIndex a.rule (commit.comesTo R) := by
  obtain ⟨ha, hready, hjudge⟩ := sweepArmed_commits hsweep
  obtain ⟨before, behind, harmed, _, hbefore, _, _⟩ := sweepArmed_some hsweep
  obtain ⟨sc, hj, hcommit⟩ := h.judge hvalid hbase hfiled hsweeps ha hready
  rw [hjudge, map_some] at hcommit
  have hholds : a.rule.holds sc = true := by
    by_contra hno
    simp [hno] at hcommit
  rw [if_pos hholds] at hcommit
  have hbelow := h.below a ha
  have hle : a.ruleIndex ≤ x.walk.ruleIndex := by
    cases swept <;> simp only [toNat_true, toNat_false] at hbelow <;> omega
  refine ⟨(hbase.armed a ha).1, hle, _, mem_cons_self, a, sc, hj, rfl, rfl, hholds, hcommit.symm, ?_⟩
  intro b scb hb hbholds hroutable
  -- a rule before the one that committed was judged and came to nothing
  have hsorted := h.sorted
  have hmem := hb.armed
  rw [harmed] at hsorted hmem
  rcases mem_append.mp hmem with hmem | hmem
  · obtain ⟨sc', hj', hcommit'⟩ := h.judge hvalid hbase hfiled hsweeps hb.armed hb.ready
    cases hb.reach.unique hj'.reach
    rw [hbefore b hmem hb.ready, map_none, if_pos hbholds] at hcommit'
    rw [Rule.unroutable_iff (hbase.armed b hb.armed).1] at hroutable
    exact absurd hcommit'.symm hroutable
  · rcases mem_cons.mp hmem with rfl | hmem
    · exact le_refl _
    · have hafter := (pairwise_append.mp hsorted).2.1
      exact le_of_lt (rel_of_pairwise_cons hafter hmem)

end

/-! ### The steps of the exchange -/

namespace Sys

variable {r : Rule ρ ι}

theorem fate_pending {p : Pending τ ρ ι} (harmed : x.walk.armedRules = [])
    (h : p.Decided R rules first past x.walk.ruleIndex) : (x.suspend (.pending p)).Fate R rules first past := by
  rcases x.suspend_cases (.pending p) with heq | ⟨q, hq, _, heq⟩
  · rw [heq]
    exact ⟨harmed, h⟩
  · cases hq
    rw [heq]
    exact h

theorem fate_drain (h : x.walk.Standing R rules first past false) (hb : x.walk.Bound) :
    (x.suspend .drain).Fate R rules first (e :: past) := h.later hb (x.walk.later_wake x.walk.wake)

theorem fate_await (h : x.walk.Standing R rules first past false) (hb : x.walk.Bound) (i : Nat) :
    (x.suspend (.await i)).Fate R rules first (e :: past) := h.later hb (x.walk.later_wake x.walk.wake)

variable {l : Label}

theorem fate_sweep (hvalid : Ordered [] rules) (hbase : x.walk.Base R rules) (hfiled : x.walk.Filed)
    (hsweeps : x.phase.sweeps = true) (h : x.walk.Standing R rules first past swept) {inWalk : Bool}
    {otherwise : Sys τ ε ρ ι → Sys τ ε ρ ι}
    (hotherwise : ∀ kept, sweepArmed R x.walk x.walk.armedRules = (kept, none) →
      (otherwise { x with walk.armedRules := kept }).Fate R rules first ((x, l) :: past)) :
    (x.sweep R inWalk otherwise).Fate R rules first ((x, l) :: past) := by
  have hdecided : ∀ kept a commit, sweepArmed R x.walk x.walk.armedRules = (kept, some (a, commit)) →
      ¬Origin.Plain (some (a.ruleIndex, a.rule)) ∧
        Origin.Decided R rules first ((x, l) :: past) (some (a.ruleIndex, a.rule)) x.walk.ruleIndex
          (commit.comesTo R) := by
    intro kept a commit hsweep
    obtain ⟨hrace, hle, hwon⟩ := h.won hvalid hbase hfiled hsweeps (l := l) hsweep
    have hnot : ¬Origin.Plain (some (a.ruleIndex, a.rule)) := by
      intro hplain
      have := hplain _ rfl
      rw [hrace] at this
      cases this
    refine ⟨hnot, ⟨fun hplain => absurd hplain hnot, fun i r ho _ => ?_⟩⟩
    cases ho
    exact ⟨hle, hwon⟩
  unfold sweep
  split
  next kept hsweep => exact hotherwise kept hsweep
  next kept a result hsweep => exact (hdecided kept a _ hsweep).2
  next kept a p hsweep =>
    obtain ⟨hnot, hdec⟩ := hdecided kept a _ hsweep
    obtain ⟨horigin, hfuture⟩ := Armed.judge_pending (sweepArmed_commits hsweep).2.2
    rw [← horigin] at hdec
    split
    · exact fate_pending rfl ⟨hdec, fun _ => hfuture⟩
    · exact ⟨hdec, fun _ => hfuture⟩

/-- A rule that is bound to a tag stands behind the rule that evaluates it. -/
theorem tag_not_mem (hvalid : Ordered [] rules) {i j : Nat} {r r' : Rule ρ ι} (hr : rules[i]? = some r)
    (hr' : rules[j]? = some r') (hlt : j < i) {tag : String} (htag : r.action.evaluateTag = some tag) (hne : tag ≠ "") :
    tag ∉ r'.matchResponseTags := by
  intro hmem
  rcases hvalid.bound j r' hr' tag hmem with hdef | ⟨k, s, hk, hs, hstag⟩
  · cases hdef
  · exact (hvalid.unique i r tag hr htag hne).2 k s (by omega) hs hstag

theorem Acts.fate (hacts : x.Acts R r x') (hvalid : Ordered [] rules) (h : x.walk.Standing R rules first past false)
    (hbase : x.walk.Base R rules) (hr : rules[x.walk.ruleIndex]? = some r) (hplain : r.race = false) :
    x'.Fate R rules first (e :: past) := by
  have hb := hbase.bound
  have horigin : Origin.Plain (some (x.walk.ruleIndex, r)) := by
    intro p hp
    cases mem_some_iff.mp hp
    exact hplain
  have hbefore : ∀ j s, (∀ p ∈ (some (x.walk.ruleIndex, r) : Origin ρ ι), j < p.1) → rules[j]? = some s →
      j < x.walk.ruleIndex := fun j s hj _ => hj _ rfl
  -- the rule has no race, so no race rule is passed with it
  have hpassed : ∀ j s, j < x.walk.ruleIndex + 1 → rules[j]? = some s → s.race = true → j < x.walk.ruleIndex := by
    intro j s hj hs hrace
    rcases Nat.lt_succ_iff_lt_or_eq.mp hj with hj | rfl
    · exact hj
    · cases some.inj (hs.symm.trans hr)
      rw [hplain] at hrace
      cases hrace
  cases hacts with
  | next options anonymous =>
    exact h.moved hb (fun a _ => ⟨fun _ _ => rfl, fun _ _ => rfl, fun _ hi => hi, le_refl _⟩) rfl
      (Nat.le_succ _) hpassed
  | await i => exact fate_await h hb i
  | drain => exact fate_drain h hb
  | exchange p harmed ho =>
    refine fate_pending harmed ⟨?_, fun hnot => ?_⟩
    · rw [ho]
      exact h.decided harmed horigin hbefore _
    · rw [ho] at hnot
      exact absurd horigin hnot
  | answer result harmed => exact h.decided harmed horigin hbefore result
  | evaluate tag transport options htag =>
    have hl := Walk.launched_evaluate hb.anonymous R r.name tag transport options
    refine h.moved hb (fun a ha => hl.keeps fun hne => ?_) rfl (Nat.le_succ _) hpassed
    exact tag_not_mem hvalid hr (hbase.armed a ha).2 (h.below a ha) htag hne
  | speculate transport options =>
    have hl := Walk.launched_route hb.anonymous R r.name transport options
    exact h.moved hb (fun a _ => hl.keeps fun hne => absurd rfl hne) rfl (le_refl _) fun j s hj _ _ => hj

theorem Fate.advance (hvalid : Ordered [] rules) (hsound : x.Sound R rules first) (hfiled : x.Filed)
    (h : x.Fate R rules first past) (hstep : x.advance R rules = some x') :
    x'.Fate R rules first ((x, .advance) :: past) := by
  obtain ⟨hbase, hstands⟩ := hsound
  have hb := hbase.bound
  obtain ⟨w, phase, async⟩ := x
  simp only at hbase hb hstands
  -- the walk stays where it is
  have hstay : w.Standing R rules first past false →
      w.Standing R rules first ((⟨w, phase, async⟩, .advance) :: past) false :=
    fun hw => hw.later hb (w.later_wake w.wake)
  have hkeeps : ∀ (kept : List (Armed ρ ι)) (a : Armed ρ ι), w.Keeps { w with armedRules := kept } a.rule :=
    fun kept a => ⟨fun _ _ => rfl, fun _ _ => rfl, fun _ hi => hi, le_refl _⟩
  cases advances hstep with
  | default hnone harmed =>
    have hw : w.Standing R rules first past false := h
    have hplain : Origin.Plain (none : Origin ρ ι) := fun p hp => absurd hp (not_mem_none p)
    refine fate_pending harmed ⟨hw.decided harmed hplain (fun j r _ hr => ?_) _, fun hnot => absurd hplain hnot⟩
    have hj := (List.getElem?_eq_some_iff.mp hr).1
    have hlen := List.getElem?_eq_none_iff.mp hnone
    exact lt_of_lt_of_le hj hlen
  | drain => exact fate_drain (x := ⟨w, .visiting, async⟩) h hb
  | speculated => exact fate_drain (x := ⟨w, .launching true, async⟩) h hb
  | bound | plain | race | test | tested | ready | matched | launched => exact hstay h
  | settle k => exact Walk.Standing.later h hb (w.later_settle k)
  | awaitTag _ _ _ i | awaitAnonymous _ i => exact fate_await (x := ⟨w, _, async⟩) h hb i
  | missed r =>
    obtain ⟨⟨_, hr⟩, hplain, _⟩ := hstands
    exact (acts_next (x := ⟨w, .matching r, async⟩) r w.effectiveOptions).fate hvalid h hbase hr hplain
  | act r =>
    obtain ⟨⟨_, hr⟩, hplain, _⟩ := hstands
    exact (Sys.acts _ r).fate hvalid h hbase hr hplain
  | arm r => exact fate_arm (x := ⟨w, .arming r, async⟩) h hb hstands.1.1
  | sweep =>
    have hw : w.Standing R rules first past true := h
    refine fate_sweep (x := ⟨w, .sweeping, async⟩) hvalid hbase hfiled rfl hw fun kept hsweep => ?_
    exact hw.sweep (x := ⟨w, .sweeping, async⟩) hvalid hbase hfiled rfl hsweep rfl
      (fun a => ⟨fun _ _ => rfl, fun _ _ => rfl, fun _ hi => hi, le_refl _⟩) rfl
  | resettle k s =>
    have hl := w.later_settle k
    cases s with
    | pending p =>
      refine ⟨hl.armedRules.trans h.1, ?_⟩
      change p.Decided R rules first _ (w.settle k).ruleIndex
      rw [hl.ruleIndex]
      exact h.2.later
    | await | drain => exact Walk.Standing.later h hb hl
  | resettled k s =>
    cases s with
    | pending p => exact ⟨h.1, h.2.later⟩
    | await | drain => exact hstay h
  | resweep s =>
    cases s with
    | pending p =>
      have hempty : w.armedRules = [] := h.1
      have hsweep : sweepArmed R w w.armedRules = ([], none) := by
        rw [hempty]
        rfl
      simp only [Sys.sweep, hsweep]
      exact h.2.later
    | await | drain =>
      have hw : w.Standing R rules first past false := h
      refine fate_sweep (x := ⟨w, .resweeping _, async⟩) hvalid hbase hfiled rfl hw fun kept hsweep => ?_
      have hkept := hw.sweep (x := ⟨w, .resweeping _, async⟩) (l := .advance) hvalid hbase hfiled rfl hsweep rfl
        (hkeeps kept) rfl
      dsimp only [Sys.resume]
      split <;> exact hkept
  | wake s =>
    cases s with
    | pending p => exact ⟨h.1, h.2.later⟩
    | await | drain => exact Walk.Standing.later h hb (w.later_wake false)
  | exchange => exact Pending.Decided.origin h |>.later
  | collect p i f hfuture =>
    have hp : p.Decided R rules first past w.ruleIndex := h
    -- an exchange launched ahead is a plain rule's
    refine ⟨hp.origin.later.plain, fun j r ho hrace => ?_⟩
    have hnot : ¬p.origin.Plain := by
      intro hplain
      have := hplain _ ho
      rw [hrace] at this
      cases this
    rw [hp.future hnot] at hfuture
    cases hfuture

theorem Fate.callback (h : x.Fate R rules first past) (hb : x.walk.Bound) (hl : x.walk.Later w') :
    Sys.Fate R rules first (e :: past) ⟨w', x.phase, x.async⟩ := by
  obtain ⟨w, phase, async⟩ := x
  have hpending : ∀ p : Pending τ ρ ι, p.Decided R rules first past w.ruleIndex →
      p.Decided R rules first (e :: past) w'.ruleIndex := by
    intro p hp
    rw [hl.ruleIndex]
    exact hp.later
  cases phase with
  | resuming _ s | resweeping s | waiting s =>
    cases s with
    | pending p => exact ⟨hl.armedRules.trans h.1, hpending p h.2⟩
    | await | drain => exact Walk.Standing.later h hb hl
  | finishing p => exact hpending p h
  | returned origin result =>
    change origin.Decided R rules first (e :: past) w'.ruleIndex result
    rw [hl.ruleIndex]
    exact Origin.Decided.later h
  | _ => exact Walk.Standing.later h hb hl

theorem Fate.step (hvalid : Ordered [] rules) (hsound : x.Sound R rules first) (hfiled : x.Filed)
    (h : x.Fate R rules first past) (hstep : x.step R rules l = some x') :
    x'.Fate R rules first ((x, l) :: past) := by
  have hb := hsound.base.bound
  cases l with
  | advance => exact h.advance hvalid hsound hfiled hstep
  | complete i =>
    obtain ⟨f, hf, _, rfl⟩ := step_complete hstep
    exact h.callback hb (Walk.later_setFuture { f with done := true } hf rfl rfl rfl id x.walk.wake)
  | wake i =>
    obtain ⟨f, hf, hdone, _, rfl⟩ := step_wake hstep
    exact h.callback hb (Walk.later_setFuture { f with woken := true } hf rfl rfl hdone id true)

end Sys

variable {options : QueryOptions}

section
variable (hvalid : Valid rules) (hrun : (machine R rules options).Run past x)
  (hcoarse : System.Along (fun x l => x.coarse l = true) past)
include hvalid hrun hcoarse

theorem fate_run : x.Fate R rules (.start options) past := by
  have h : x.Sound R rules (.start options) ∧ x.Filed ∧ x.Fate R rules (.start options) past := by
    refine hrun.invariant_past (I := fun past x => x.Sound R rules (.start options) ∧ x.Filed ∧
      x.Fate R rules (.start options) past) ?_ ?_ hcoarse
    · rintro _ ⟨async, rfl⟩
      refine ⟨sound_start options async, trivial, ?_⟩
      change Walk.Standing R rules (.start options) [] (.start options) false
      constructor <;> simp [Walk.start]
    · rintro past x x' l - ⟨hsound, hfiled, hfate⟩ hl hstep
      exact ⟨hsound.step hvalid.ordered (fun _ => rfl) hfiled.calm hstep, hfiled.step hl hstep,
        hfate.step hvalid.ordered hsound hfiled hstep⟩
  exact h.2.2

/-- Where a sweep looks at an armed rule that is ready, it judges it. -/
theorem judged_run (hsweeps : x.phase.sweeps = true) {a : Armed ρ ι} (ha : a ∈ x.walk.armedRules)
    (hready : a.ready x.walk = true) : ∃ sc, x.Judges R rules (.start options) a sc := by
  obtain ⟨hfiled, hcalm⟩ := filed_run hrun hcoarse
  have hbase := (sound_run hvalid hrun hcalm).base
  have hfate := fate_run hvalid hrun hcoarse
  obtain ⟨w, phase, async⟩ := x
  have hjudges : ∀ swept, w.Standing R rules (.start options) past swept → w.Filed →
      ∃ sc, Sys.Judges R rules (.start options) ⟨w, phase, async⟩ a sc := by
    intro swept hw hf
    obtain ⟨sc, hj, _⟩ := hw.judge (x := ⟨w, phase, async⟩) hvalid.ordered hbase hf hsweeps ha hready
    exact ⟨sc, hj⟩
  cases phase with
  | sweeping => exact hjudges true hfate hfiled
  | resweeping s =>
    cases s with
    | pending p =>
      rw [show w.armedRules = [] from hfate.1] at ha
      cases ha
    | await | drain => exact hjudges false hfate hfiled
  | _ => cases hsweeps

end

end

/-- Where exchanges complete inside their launch or while the walk is suspended, the race rules
are decided before anything behind them takes effect, and if none of those reached matches, the
exchange comes to what it comes to without them. -/
theorem race_decided_first {τ ε ρ ι : Type} (R : Router τ ε ρ ι) (rules : List (Rule ρ ι)) (options : QueryOptions)
    (hvalid : Valid rules) (past : List (Sys τ ε ρ ι × Label)) (x : Sys τ ε ρ ι)
    (hrun : (machine R rules options).Run past x) (hcoarse : System.Along (fun x l => x.coarse l = true) past) :
    (∀ origin result, x.phase = .returned origin result →
      (origin.Plain → ∀ j r, (∀ p ∈ origin, j < p.1) → rules[j]? = some r → r.race = true →
        PassedOver R rules (.start options) past j r) ∧
      (∀ i r, origin = some (i, r) → r.race = true → Won R rules (.start options) past i r result) ∧
      ((∀ i r sc, i ≤ x.walk.ruleIndex → rules[i]? = some r → r.race = true →
          Reaches R rules (.start options) i sc → r.holds sc = false) →
        ∀ past' x' origin' result', (machine R (rules.filter fun r => !r.race) options).Run past' x' →
          System.Along (fun x l => x.coarse l = true) past' → x'.phase = .returned origin' result' →
          result' = result)) ∧
      (machine R rules options).Inevitable (fun x => ∃ origin result, x.phase = .returned origin result) x := by
  refine ⟨fun origin result hphase => ?_, (live_run hrun).returns options⟩
  have hfate := fate_run hvalid hrun hcoarse
  have hstands := (sound_run hvalid hrun (filed_run hrun hcoarse).2).stands
  rw [Sys.Fate, hphase] at hfate
  rw [hphase] at hstands
  obtain ⟨hknown, hresult⟩ := hstands
  refine ⟨hfate.plain, fun i r ho hrace => (hfate.race i r ho hrace).2, ?_⟩
  intro hnone past' x' origin' result' hrun' hcoarse' hphase'
  -- a race rule that ended the exchange would be reached and match
  have hplain : origin.Plain := by
    intro p hp
    by_contra hrace
    have hrace : p.2.race = true := by simpa using hrace
    obtain ⟨hle, e, _, a, sc, hj, hi, hr, hholds, _⟩ := hfate.race p.1 p.2 hp hrace
    have hno := hnone p.1 p.2 sc hle (hknown p hp) hrace (hi ▸ hj.reach)
    rw [hno] at hholds
    cases hholds
  have hvalid' : Valid (rules.filter fun r => !r.race) := validateRules_filter hvalid
  have hstands' := (sound_run hvalid' hrun' (filed_run hrun' hcoarse').2).stands
  rw [hphase'] at hstands'
  have hplain' : origin'.Plain := by
    intro p hp
    have hmem := mem_of_getElem? (hstands'.1 p hp)
    simpa using (mem_filter.mp hmem).2
  rw [hresult hplain, hstands'.2 hplain', sequential_filter R rules]

/-- A route that races for the response under `tag`. -/
def racing (name : Nat) (tag : String) (htag : tag ≠ "") (server : String) : Rule String Nat :=
  { name := name, matchResponseTag := tag, matchResponseTags := [tag], matchResponseAnonymous := false, race := true,
    action := .route server false ⟨false, false, none, 0, none, false⟩, matchOn := fun _ named => (named tag).isSome,
    matchOn_bound := by
      intro a a' named named' _ h
      rw [h tag (by simp)]
    tag_mem := by simp, tag_ne := by simpa using htag, race_bound := by simp, race_final := fun _ => rfl,
    not_reply := by simp }

/-- Evaluate with the tag `t`, and two routes that race for its response; there is no server for
the first. -/
def raceForResponse : List (Rule String Nat) :=
  evaluateRespond.take 1 ++ [racing 1 "t" (by simp) "none", racing 2 "t" (by simp) "s"]

theorem raceForResponse_valid : Valid raceForResponse := by rfl

def raceRun (ls : List Label) : Option (Sys Nat String String Nat) :=
  (machine twoAnswers raceForResponse plainQuery).exec ls ⟨.start plainQuery, .visiting, false⟩

theorem raceRun_run {ls : List Label} {x : Sys Nat String String Nat} (h : raceRun ls = some x) :
    (machine twoAnswers raceForResponse plainQuery).Run
      ((machine twoAnswers raceForResponse plainQuery).trace ls ⟨.start plainQuery, .visiting, false⟩ []) x :=
  System.run_exec (.start _ ⟨_, rfl⟩) h

/-- The response comes in while the walk waits for it; then the armed rules are swept. -/
def raceSwept : List Label := List.replicate 16 .advance ++ [.complete 0, .wake 0] ++ List.replicate 3 .advance

/-- The place of the rule through which the exchange ended. -/
def Sys.endedAt {τ ε ρ ι : Type} (x : Sys τ ε ρ ι) : Option Nat :=
  match x.phase with
  | .returned (some (i, _)) _ => some i
  | _ => none

theorem Sys.endedAt_eq_some {τ ε ρ ι : Type} {x : Sys τ ε ρ ι} {i : Nat} (h : x.endedAt = some i) :
    ∃ r result, x.phase = .returned (some (i, r)) result := by
  unfold endedAt at h
  split at h
  next r result hphase =>
    cases h
    exact ⟨r, result, hphase⟩
  · cases h

theorem race_decided_first_swept :
    ∃ x r result, raceRun (raceSwept ++ [.advance, .advance]) = some x ∧ x.phase = .returned (some (2, r)) result ∧
      Won twoAnswers raceForResponse (.start plainQuery)
        ((machine twoAnswers raceForResponse plainQuery).trace (raceSwept ++ [.advance, .advance])
          ⟨.start plainQuery, .visiting, false⟩ []) 2 r result := by
  let x := (raceRun (raceSwept ++ [.advance, .advance])).get (by decide +kernel)
  have hx : raceRun (raceSwept ++ [.advance, .advance]) = some x := (some_get _).symm
  obtain ⟨r, result, hphase⟩ := Sys.endedAt_eq_some (x := x) (i := 2) (by decide +kernel)
  have hrun := raceRun_run hx
  have hcoarse : System.Along (fun x l => x.coarse l = true)
      ((machine twoAnswers raceForResponse plainQuery).trace (raceSwept ++ [.advance, .advance])
        ⟨.start plainQuery, .visiting, false⟩ []) := System.along_exec (by decide +kernel)
  have hknown := (sound_run raceForResponse_valid hrun (filed_run hrun hcoarse).2).stands
  rw [hphase] at hknown
  have hrace : r.race = true := by
    cases some.inj (hknown.1 _ rfl)
    rfl
  exact ⟨x, r, result, hx, hphase, ((race_decided_first twoAnswers raceForResponse plainQuery raceForResponse_valid _ x
    hrun hcoarse).1 _ result hphase).2.1 2 r rfl hrace⟩

/-- Both race rules are ready in one sweep and match. There is no server for the first, so the
exchange ends through the second, which does not have the lowest index. -/
theorem missing_server_is_overtaken :
    Valid raceForResponse ∧ ∃ past x e a b sca scb result,
      (machine twoAnswers raceForResponse plainQuery).Run past x ∧
      System.Along (fun x l => x.coarse l = true) past ∧ e ∈ past ∧
      e.1.Judges twoAnswers raceForResponse (.start plainQuery) a sca ∧ a.rule.holds sca = true ∧
      e.1.Judges twoAnswers raceForResponse (.start plainQuery) b scb ∧ b.rule.holds scb = true ∧
      a.ruleIndex < b.ruleIndex ∧ b.rule.race = true ∧
      x.phase = .returned (some (b.ruleIndex, b.rule)) result := by
  refine ⟨raceForResponse_valid, ?_⟩
  let s := (raceRun raceSwept).get (by decide +kernel)
  let y := (s.advance twoAnswers raceForResponse).get (by decide +kernel)
  let x := (y.advance twoAnswers raceForResponse).get (by decide +kernel)
  have hs : raceRun raceSwept = some s := (some_get _).symm
  have hrun := raceRun_run hs
  have hcoarse : System.Along (fun x l => x.coarse l = true)
      ((machine twoAnswers raceForResponse plainQuery).trace raceSwept ⟨.start plainQuery, .visiting, false⟩ []) :=
    System.along_exec (by decide +kernel)
  have hrun' := (hrun.next _ s y .advance (some_get _).symm).next _ y x .advance (some_get _).symm
  have hcoarse' := (System.along_cons _ y .advance _).mpr ⟨rfl, (System.along_cons _ s .advance _).mpr ⟨rfl, hcoarse⟩⟩
  -- the two rules are armed, ready and match
  have hplaces : s.walk.armedRules.map Armed.ruleIndex = [1, 2] := by decide +kernel
  have hready : ∀ a ∈ s.walk.armedRules, a.ready s.walk = true := by decide +kernel
  have hmatch : ∀ a ∈ s.walk.armedRules, a.rule.matchOn (a.response s.walk) s.walk.namedResponses = true := by
    decide +kernel
  have hjudges : ∀ a ∈ s.walk.armedRules, ∃ sc,
      s.Judges twoAnswers raceForResponse (.start plainQuery) a sc ∧ a.rule.holds sc = true := by
    intro a ha
    obtain ⟨sc, hj⟩ := judged_run raceForResponse_valid hrun hcoarse (by decide +kernel) ha (hready a ha)
    exact ⟨sc, hj, hj.matchOn_eq.symm.trans (hmatch a ha)⟩
  obtain ⟨a, armed, harmed, ha, hrest⟩ := map_eq_cons_iff.mp hplaces
  obtain ⟨b, _, rfl, hb, _⟩ := map_eq_cons_iff.mp hrest
  have hmem : b ∈ s.walk.armedRules := by simp [harmed]
  obtain ⟨sca, hja, hholdsa⟩ := hjudges a (by simp [harmed])
  obtain ⟨scb, hjb, hholdsb⟩ := hjudges b hmem
  -- the exchange ends through the second
  obtain ⟨hrace, hrule⟩ := (sound_run raceForResponse_valid hrun (filed_run hrun hcoarse).2).base.armed b hmem
  obtain ⟨r, result, hphase⟩ := Sys.endedAt_eq_some (x := x) (i := 2) (by decide +kernel)
  have hstands := (sound_run raceForResponse_valid hrun' (filed_run hrun' hcoarse').2).stands
  rw [hphase] at hstands
  have hr : r = b.rule := by
    rw [hb] at hrule
    exact some.inj ((hstands.1 _ rfl).symm.trans hrule)
  refine ⟨_, x, (s, .advance), a, b, sca, scb, result, hrun', hcoarse', by simp, hja, hholdsa, hjb, hholdsb, ?_,
    hrace, ?_⟩
  · rw [ha, hb]
    decide
  · rw [hphase, hb, hr]

end SingBox.DNS
