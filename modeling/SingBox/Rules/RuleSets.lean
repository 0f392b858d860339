import SingBox.Rules.Verdict

/-!
# Verdicts of rule sets and of whole rules

The verdict is defined along the rule; every call of `Match` comes to it.
-/
namespace SingBox.Rules

open SingBox.Lib Headless Verdict

variable {α κ : Type}

/-- The verdict on the groups of a rule that refers to no rule set. -/
def Default.ownGroups (r : Default α κ) (f : Flags) (groups : Groups) : Verdict :=
  .pending groups.hold (r.defers f)

mutual

def Headless.verdict (m : Metadata α κ) : Headless α κ → Flags → Verdict
  | .default rule, f =>
    if rule.allItemsEmpty then .yes
    else (rule.innerVerdict m rule.ownGroups f).notIf rule.invert
  | .logical mode rules invert, f => (mode.combine (verdictList m rules f.reset)).notIf invert

def Headless.verdictList (m : Metadata α κ) : List (Headless α κ) → Flags → List Verdict
  | [], _ => []
  | rule :: rules, f => rule.verdict m f :: verdictList m rules f

end

theorem Headless.verdictList_eq (m : Metadata α κ) (rules : List (Headless α κ)) (f : Flags) :
    verdictList m rules f = rules.map fun r => r.verdict m f := by
  induction rules with
  | nil => rfl
  | cons rule rules ih => rw [verdictList, ih, List.map_cons]

theorem Default.ownGroups_reports (r : Default α κ) (m : Metadata α κ) {c : Cache}
    (hd : c.deferredIPCIDRMatchGroups = opened (r.defers c.toFlags)) :
    Reports (r.ownGroups c.toFlags (r.groups m c.toFlags)) c.toFlags ((r.groups m c.toFlags).toMatch.done, c) := by
  rw [Groups.toMatch_done, Default.ownGroups]
  refine ⟨?_, rfl, fun hv => ?_⟩
  · cases (r.groups m c.toFlags).hold <;> cases r.defers c.toFlags <;> rfl
  · revert hv
    rw [hd]
    cases (r.groups m c.toFlags).hold <;> cases r.defers c.toFlags <;> simp [pending]

/-- The switches that are the same but for the address items, which are looked at. -/
def Flags.decided (f : Flags) : Flags := { f with ignoreDestinationIPCIDRMatch := false }

theorem Default.defers_decided (r : Default α κ) (f : Flags) : r.defers f.decided = false := rfl

theorem Default.ownGroups_decided (r : Default α κ) (f : Flags) (groups : Groups) :
    r.ownGroups f.decided groups ≠ .maybe := by
  rw [ownGroups, Ne, pending_eq_maybe]
  exact fun h => Bool.noConfusion h.2

theorem Default.innerVerdict_decided (m : Metadata α κ) {r : Default α κ} {v : Flags → Groups → Verdict} {f : Flags}
    (h : v f (r.groups m f) ≠ .maybe) : r.innerVerdict m v f ≠ .maybe := by
  rw [innerVerdict, settleIf_ne_maybe _ h]
  cases r.matchItems m
  · simp
  · simpa using h

theorem LogicalMode.combine_ne_maybe (mode : LogicalMode) {l : List Verdict} (h : ∀ v ∈ l, v ≠ .maybe) :
    mode.combine l ≠ .maybe := by
  cases mode
  · exact all_ne_maybe h
  · exact any_ne_maybe h

theorem Headless.verdict_decided (m : Metadata α κ) (r : Headless α κ) (f : Flags) :
    r.verdict m f.decided ≠ .maybe := by
  induction r using induct generalizing f with
  | hdefault rule =>
    rw [verdict]
    cases rule.allItemsEmpty with
    | true => simp
    | false => exact notIf_ne_maybe _ (Default.innerVerdict_decided m (rule.ownGroups_decided f _))
  | hlogical mode rules invert ih =>
    rw [verdict, verdictList_eq]
    refine notIf_ne_maybe _ (mode.combine_ne_maybe ?_)
    rw [List.forall_mem_map]
    exact fun r hr => ih r hr f.reset

/-- A rule of a set leaves nothing open, or the set is not referred to for domains only. -/
def Flags.Certain (f : Flags) : Prop := f.ruleSetDomainOnly = false ∨ f.ignoreDestinationIPCIDRMatch = false

theorem Flags.Certain.sure {f : Flags} (h : f.Certain) (m : Metadata α κ) (rules : List (Headless α κ)) :
    f.ruleSetDomainOnly = false ∨ ∀ r ∈ rules, r.verdict m f ≠ .maybe := by
  refine h.imp_right fun hi r _ => ?_
  have hdecided : f.decided = f := by rw [decided, ← hi]
  exact hdecided ▸ r.verdict_decided m f

theorem Headless.match_tells (m : Metadata α κ) (r : Headless α κ) :
    TellsIf Flags.Certain (r.match m) (r.verdict m) := by
  induction r using induct with
  | hdefault rule =>
    have hinner : TellsIf Flags.Certain (rule.matchInner m none) (rule.innerVerdict m rule.ownGroups) :=
      rule.matchInner_tells m fun c hd _ => rule.ownGroups_reports m hd
    intro c hd hc
    have htells := matchDefault_tells rule.allItemsEmpty rule.invert hinner c hd hc
    rw [Headless.match, verdict]
    exact htells
  | hlogical mode rules invert ih =>
    intro c hd hc
    have htells := matchLogical_tells ih (fun _ => id) (fun f hf => hf.sure m rules) mode invert c hd hc
    rw [Headless.match, verdict, matchList_eq, verdictList_eq]
    exact htells

theorem matchAnyHeadlessRule_tells (m : Metadata α κ) (rules : List (Headless α κ)) :
    TellsIf Flags.Certain (matchAnyHeadlessRule m rules) fun f => Verdict.any (rules.map fun r => r.verdict m f) := by
  intro c hd hc
  have hany := matchSome_tells (fun r (_ : r ∈ rules) => r.match_tells m) Cache.resetRuleMatchCache id
    (fun _ => rfl) (fun _ => rfl) (fun _ => rfl) (fun _ => id) .no hc rfl
      ((hc.sure m rules).imp (⟨nofun, ·⟩) (⟨nofun, ·⟩))
  rw [no_or] at hany
  unfold matchAnyHeadlessRule
  beta_reduce
  change Outcome _ (matchSome Cache.resetRuleMatchCache (rules.map (Headless.match m)) false 0#8 c) at hany
  simp only [id] at hany
  generalize matchSome Cache.resetRuleMatchCache (rules.map (Headless.match m)) false 0#8 c = result at hany
  obtain ⟨matched, deferred, c'⟩ := result
  obtain ⟨hm, hdef⟩ := hany
  have hzero : c.deferredIPCIDRMatchGroups = opened false := hd
  refine ⟨hm, ?_, fun hv => ?_⟩
  · cases matched <;> rfl
  · have htrue : matched = true := hm.trans (decide_eq_true hv)
    subst htrue
    change c.deferredIPCIDRMatchGroups ||| deferred = _
    have hdef' : deferred = _ := hdef hv
    rw [hzero, hdef', opened_or, Bool.false_or]

namespace RuleSetItem

variable (item : RuleSetItem α κ) (m : Metadata α κ)

/-- The switches the rules of a set are matched under. -/
def nested (f : Flags) : Flags :=
  { f with ipCIDRMatchSource := item.ipCidrMatchSource, ipCIDRAcceptEmpty := item.ipCidrAcceptEmpty }

/-- The groups of the rule and of the only rule of a set, matched as one. -/
def mergedVerdict (outer : Groups) (f : Flags) (branch : DefaultHeadless α κ) : Verdict :=
  .pending (branch.matchItems m && (outer.merge (branch.groups m f)).hold)
    (branch.defers f && !(outer.merge (branch.groups m f)).destinationAddress.any id)

/-- The verdict on one of the sets, in the rule with the groups `outer`. -/
def setVerdict (outer : Groups) (f : Flags) (rules : List (Headless α κ)) : Verdict :=
  match mergeableRuleIn rules with
  | some branch => mergedVerdict m outer f branch
  | none => if outer.hold then .any (rules.map fun r => r.verdict m f) else .no

/-- A set that is merged answers the question the rule itself left open. -/
def setAnswers (outer : Groups) (f : Flags) (rules : List (Headless α κ)) : Bool :=
  match mergeableRuleIn rules with
  | some branch => (outer.merge (branch.groups m f)).destinationAddress.any id
  | none => false

/-- The verdict on the sets; the first one that holds is taken as it is. -/
def setsVerdict (isOpen : Bool) (outer : Groups) (f : Flags) : List (List (Headless α κ)) → Verdict
  | [] => .no
  | rules :: sets =>
    match setVerdict m outer f rules with
    | .no => setsVerdict isOpen outer f sets
    | .maybe => maybe.or (setsVerdict isOpen outer f sets)
    | .yes => .pending true (isOpen && !setAnswers m outer f rules)

/-- A reference for domains only is matched by itself. -/
def alone : Bool := (item.match m ⟨⟨false, false, false, false⟩, 0#8, false⟩).1

/-- The verdict on the groups of a rule that refers to rule sets. -/
def verdict (isOpen : Bool) (f : Flags) (outer : Groups) : Verdict :=
  if item.domainOnly then .pending (outer.hold && item.alone m) isOpen
  else setsVerdict m isOpen outer (item.nested f) item.setList

theorem evaluateForMerge_eq (branch : DefaultHeadless α κ) (f : Flags) (domainMatched : Bool) :
    branch.evaluateForMerge m ⟨f, 0#8, domainMatched⟩ =
      (if branch.matchItems m then some (branch.groups m f).toMatch else none,
        ⟨f, opened (branch.defers f), domainMatched || Default.matchAnyItem m branch.destinationAddressItems⟩) := by
  rw [Default.evaluateForMerge, Default.evaluateGroups_eq]
  cases branch.defers f <;> simp [opened]

/-- The loop over the sets, with the verdict on those before. -/
theorem matchBranches_reports (hdom : item.domainOnly = false) (outer : Groups) {snapshot : Cache}
    {isOpen : Bool} (hs : snapshot.deferredIPCIDRMatchGroups = opened isOpen) {f : Flags}
    (honly : f.ruleSetDomainOnly = false) (sets : List (List (Headless α κ))) (acc : Verdict) (hacc : acc ≠ .yes)
    {c : Cache} (hf : item.nested c.toFlags = f) :
    Reports (acc.or (setsVerdict m isOpen outer f sets)) snapshot.toFlags
      (item.matchBranches m outer.toMatch snapshot sets (decide (acc ≠ .no)) (opened (decide (acc = .maybe))) c) := by
  induction sets generalizing acc c with
  | nil =>
    cases acc with
    | no => exact ⟨rfl, rfl, fun h => absurd rfl h⟩
    | maybe =>
      refine ⟨rfl, rfl, fun _ => ?_⟩
      change snapshot.deferredIPCIDRMatchGroups ||| opened true = opened true
      rw [hs, opened_or, Bool.or_true]
    | yes => exact absurd rfl hacc
  | cons rules sets ih =>
    have hnested : item.nested f = f := hf ▸ rfl
    -- the loop goes on with the same switches, whatever the set left behind
    have hskip : ∀ c' : Cache, c'.toFlags = f → Reports (acc.or (setsVerdict m isOpen outer f sets)) snapshot.toFlags
        (item.matchBranches m outer.toMatch snapshot sets (decide (acc ≠ .no)) (opened (decide (acc = .maybe))) c') :=
      fun c' hc' => ih acc hacc (by rw [hc', hnested])
    have hmaybe : ∀ c' : Cache, c'.toFlags = f →
        Reports (acc.or (maybe.or (setsVerdict m isOpen outer f sets))) snapshot.toFlags
          (item.matchBranches m outer.toMatch snapshot sets true
            (opened (decide (acc = .maybe)) ||| opened true) c') := by
      intro c' hc'
      have hrest := ih .maybe nofun (c := c') (by rw [hc', hnested])
      rw [opened_or, Bool.or_true, ← Verdict.or_assoc]
      cases acc <;> first | exact absurd rfl hacc | exact hrest
    have hprepared : item.prepareNestedMatch c = ⟨item.nested c.toFlags, 0#8, c.ruleSetDomainMatched⟩ := by
      rw [prepareNestedMatch, hdom]
      rfl
    rw [matchBranches, hprepared, hf, setsVerdict, setVerdict]
    cases hmerge : mergeableRuleIn rules with
    | some branch =>
      simp only [evaluateForMerge_eq, mergedVerdict]
      cases branch.matchItems m with
      | false => exact hskip _ rfl
      | true =>
        simp only [if_true, Groups.toMatch_merge, Groups.toMatch_done, Bool.true_and]
        cases (outer.merge (branch.groups m f)).hold with
        | false => exact hskip _ rfl
        | true =>
          simp only [if_true, opened_clear_groups, opened_eq, hs, setAnswers, hmerge, Cache.restore]
          cases branch.defers f && !(outer.merge (branch.groups m f)).destinationAddress.any id with
          | true => exact hmaybe _ rfl
          | false =>
            refine ⟨?_, rfl, fun _ => ?_⟩
            all_goals
              cases acc <;> first | exact absurd rfl hacc | skip
              all_goals
                cases isOpen && !(outer.merge (branch.groups m f)).destinationAddress.any id <;> rfl
    | none =>
      simp only [Groups.toMatch_done]
      cases outer.hold with
      | false => exact hskip _ rfl
      | true =>
        have hany := matchAnyHeadlessRule_tells m rules ⟨f, 0#8, c.ruleSetDomainMatched⟩ rfl (.inl honly)
        simp only [if_true]
        rcases hres : matchAnyHeadlessRule m rules ⟨f, 0#8, c.ruleSetDomainMatched⟩ with ⟨matched, c'⟩
        rw [hres] at hany
        simp only at hany
        have hflags : c'.toFlags = f := hany.flags
        obtain ⟨hv, hm⟩ | ⟨hv, hm, hdef⟩ | ⟨hv, hm, hdef⟩ := hany.cases <;> simp only at hm <;> subst hm <;> rw [hv]
        · exact hskip c' hflags
        · simp only at hdef
          simp only [hdef, opened_eq]
          exact hmaybe c' hflags
        · simp only at hdef
          simp only [hdef, opened_eq, setAnswers, hmerge]
          refine ⟨?_, rfl, fun _ => ?_⟩
          · cases acc <;> cases isOpen <;> first | exact absurd rfl hacc | rfl
          · refine (hs : (snapshot.restore c').deferredIPCIDRMatchGroups = _).trans ?_
            cases acc <;> cases isOpen <;> first | exact absurd rfl hacc | rfl

/-- A reference for domains only starts every set on the same cache. -/
theorem matchSets_alone (h : item.domainOnly = true) (sets : List (List (Headless α κ))) (c c' : Cache) :
    (item.matchSets m sets c).1 = (item.matchSets m sets c').1 := by
  have hprepare : item.prepareNestedMatch c = item.prepareNestedMatch c' := by
    simp [prepareNestedMatch, h, Cache.resetRuleMatchCache]
  cases sets with
  | nil => rfl
  | cons rules sets => rw [matchSets, matchSets, hprepare]

theorem match_alone (h : item.domainOnly = true) (c : Cache) : (item.match m c).1 = item.alone m :=
  item.matchSets_alone m h item.setList c _

theorem matchWithOuterGroups_reports {outer : Groups} {isOpen : Bool} {c : Cache}
    (hd : c.deferredIPCIDRMatchGroups = opened isOpen) (hc : c.ruleSetDomainOnly = false) :
    Reports (item.verdict m isOpen c.toFlags outer) c.toFlags
      (item.matchWithOuterGroups m outer.toMatch c) := by
  rw [verdict, matchWithOuterGroups, Groups.toMatch_done]
  cases hdom : item.domainOnly with
  | false =>
    have h := item.matchBranches_reports m hdom outer hd (f := item.nested c.toFlags) hc item.setList .no nofun rfl
    rw [no_or] at h
    exact h
  | true =>
    cases outer.hold with
    | false => exact ⟨rfl, rfl, fun h => absurd rfl h⟩
    | true =>
      simp only [if_true, Bool.true_and]
      refine ⟨?_, rfl, fun hv => (hd : (item.match m c).2.deferredIPCIDRMatchGroups = _).trans ?_⟩
      · rw [item.match_alone m hdom]
        cases item.alone m <;> cases isOpen <;> rfl
      · revert hv
        cases item.alone m <;> cases isOpen <;> simp [pending]

end RuleSetItem

/-- The verdict on the groups of a default rule. -/
def Default.groupsVerdict (r : Default α κ) (ruleSet : Option (RuleSetItem α κ)) (m : Metadata α κ) (f : Flags)
    (groups : Groups) : Verdict :=
  match ruleSet with
  | none => r.ownGroups f groups
  | some item => item.verdict m (r.defers f) f groups

def Default.verdict (r : Default α κ) (ruleSet : Option (RuleSetItem α κ)) (m : Metadata α κ) (f : Flags) : Verdict :=
  if r.allItemsEmpty && ruleSet.isNone then .yes
  else (r.innerVerdict m (r.groupsVerdict ruleSet m) f).notIf r.invert

theorem Default.match_tells (r : Default α κ) (ruleSet : Option (RuleSetItem α κ)) (m : Metadata α κ) :
    Tells (r.match ruleSet m) (r.verdict ruleSet m) := by
  refine matchDefault_tells _ _ (r.matchInner_tells m fun c hd hc => ?_)
  cases ruleSet with
  | none => exact r.ownGroups_reports m hd
  | some item => exact item.matchWithOuterGroups_reports m hd hc

def Default.verdictForMatch (r : Default α κ) (ruleSet : Option (RuleSetItem α κ)) (matchResponse : Option String)
    (m : Metadata α κ) (f : Flags) : Verdict :=
  match matchResponse with
  | none => r.verdict ruleSet m f
  | some tag =>
    match m.matchedResponse tag with
    | none => .ofBool r.invert
    | some response => .ofBool (decide (r.verdict ruleSet (m.withResponse (some response)) f ≠ .no))

theorem Default.matchForMatch_tells (r : Default α κ) (ruleSet : Option (RuleSetItem α κ))
    (matchResponse : Option String) (m : Metadata α κ) :
    Tells (r.matchForMatch ruleSet matchResponse m) (r.verdictForMatch ruleSet matchResponse m) := by
  cases matchResponse with
  | none => exact r.match_tells ruleSet m
  | some tag =>
    -- the cache is as before the copy was matched
    have hcopy : ∀ (c : Cache) (b : Bool), c.deferredIPCIDRMatchGroups = 0#8 →
        Reports (.ofBool b) c.toFlags (b, c) := by
      intro c b hd
      refine ⟨?_, rfl, fun _ => hd.trans ?_⟩ <;> cases b <;> rfl
    intro c hd hc
    simp only [matchForMatch, verdictForMatch]
    cases m.matchedResponse tag with
    | none => exact hcopy c r.invert hd
    | some response =>
      have htells := r.match_tells ruleSet (m.withResponse (some response)) c hd hc
      simp only [← htells.matched]
      exact hcopy c _ hd

mutual

def Rule.verdict (m : Metadata α κ) : Rule α κ → Flags → Verdict
  | .default rule ruleSet matchResponse, f => rule.verdictForMatch ruleSet matchResponse m f
  | .logical mode rules invert, f => (mode.combine (Rule.verdictList m rules f.reset)).notIf invert

def Rule.verdictList (m : Metadata α κ) : List (Rule α κ) → Flags → List Verdict
  | [], _ => []
  | rule :: rules, f => rule.verdict m f :: Rule.verdictList m rules f

end

namespace Rule

variable (m : Metadata α κ)

theorem verdictList_eq (rules : List (Rule α κ)) (f : Flags) :
    verdictList m rules f = rules.map fun r => r.verdict m f := by
  induction rules with
  | nil => rfl
  | cons rule rules ih => rw [verdictList, ih, List.map_cons]

theorem match_tells (r : Rule α κ) : Tells (r.match m) (r.verdict m) := by
  induction r using Rule.induct with
  | hdefault rule ruleSet matchResponse =>
    intro c hd hc
    have htells := rule.matchForMatch_tells ruleSet matchResponse m c hd hc
    rw [Rule.match, Rule.verdict]
    exact htells
  | hlogical mode rules invert ih =>
    intro c hd hc
    have htells := matchLogical_tells ih (fun _ => id) (fun _ => .inl) mode invert c hd hc
    rw [Rule.match, Rule.verdict, Rule.matchList_eq, Rule.verdictList_eq]
    exact htells

end Rule
end SingBox.Rules
