import SingBox.Rules.RuleSets

/-!
# The boolean meaning of a rule

A rule has a meaning that knows nothing of the cache: items are joined by `and`,
those of a group by `or`, and a set of one rule that is not inverted is read as a part
of the rule that refers to it. `Match` returns that value, except that an inverted
default rule without any item matches too.
-/
namespace SingBox.Rules

open SingBox.Lib List Headless

variable {α κ : Type}

/-- No switch of the rule cache is set. -/
def Flags.off : Flags := ⟨false, false, false, false⟩

/-- The results of the items of each group. -/
def Default.results (r : Default α κ) (m : Metadata α κ) : Groups where
  sourceAddress := r.sourceAddressItems.map fun item => item m.connection
  sourcePort := r.sourcePortItems.map fun item => item m.connection
  destinationAddress := r.destinationAddressItems.map (fun item => item m.connection) ++
    r.destinationIPCIDRItems.map (AddressItem.match m .off)
  destinationPort := r.destinationPortItems.map fun item => item m.connection

def LogicalMode.holds : LogicalMode → List Bool → Bool
  | .and, results => results.all id
  | .or, results => results.any id

-- `blank` is the value of a default rule without items, by its inversion
mutual

def Headless.meaning (blank : Bool → Bool) (m : Metadata α κ) : Headless α κ → Bool
  | .default rule =>
    if rule.allItemsEmpty then blank rule.invert
    else rule.invert ^^ (rule.matchItems m && (rule.results m).hold)
  | .logical mode rules invert => invert ^^ mode.holds (meanings blank m rules)

def Headless.meanings (blank : Bool → Bool) (m : Metadata α κ) : List (Headless α κ) → List Bool
  | [] => []
  | rule :: rules => rule.meaning blank m :: meanings blank m rules

end

theorem Headless.meanings_eq (blank : Bool → Bool) (m : Metadata α κ) (rules : List (Headless α κ)) :
    meanings blank m rules = rules.map (meaning blank m) := by
  induction rules with
  | nil => rfl
  | cons rule rules ih => rw [meanings, ih, map_cons]

/-- A set holds in a rule whose groups have the results `outer`. -/
def setMeaning (blank : Bool → Bool) (m : Metadata α κ) (outer : Groups) (rules : List (Headless α κ)) : Bool :=
  match mergeableRuleIn rules with
  | some branch => branch.matchItems m && (outer.merge (branch.results m)).hold
  | none => outer.hold && rules.any (meaning blank m)

/-- The groups of a rule hold, by themselves or with one of the sets it refers to. -/
def groupsMeaning (blank : Bool → Bool) (ruleSet : Option (RuleSetItem α κ)) (m : Metadata α κ)
    (outer : Groups) : Bool :=
  match ruleSet with
  | none => outer.hold
  | some item => item.setList.any (setMeaning blank m outer)

def Default.meaning (blank : Bool → Bool) (r : Default α κ) (ruleSet : Option (RuleSetItem α κ))
    (m : Metadata α κ) : Bool :=
  if r.allItemsEmpty && ruleSet.isNone then blank r.invert
  else r.invert ^^ (r.matchItems m && groupsMeaning blank ruleSet m (r.results m))

mutual

def Rule.meaning (blank : Bool → Bool) (m : Metadata α κ) : Rule α κ → Bool
  | .default rule ruleSet _ => rule.meaning blank ruleSet m
  | .logical mode rules invert => invert ^^ mode.holds (Rule.meanings blank m rules)

def Rule.meanings (blank : Bool → Bool) (m : Metadata α κ) : List (Rule α κ) → List Bool
  | [] => []
  | rule :: rules => rule.meaning blank m :: Rule.meanings blank m rules

end

theorem Rule.meanings_eq (blank : Bool → Bool) (m : Metadata α κ) (rules : List (Rule α κ)) :
    Rule.meanings blank m rules = rules.map (Rule.meaning blank m) := by
  induction rules with
  | nil => rfl
  | cons rule rules ih => rw [meanings, ih, map_cons]

/-- The reference sets none of the switches. -/
structure RuleSetItem.Plain (item : RuleSetItem α κ) : Prop where
  matchSource : item.ipCidrMatchSource = false
  acceptEmpty : item.ipCidrAcceptEmpty = false
  domainOnly : item.domainOnly = false

/-- The rules with a meaning of their own: none is about a DNS response, and no reference
to rule sets changes how a set is read. -/
inductive Rule.Plain : Rule α κ → Prop
  | default {rule : Default α κ} {ruleSet : Option (RuleSetItem α κ)} (h : ∀ item ∈ ruleSet, item.Plain) :
    Rule.Plain (.default rule ruleSet none)
  | logical {mode : LogicalMode} {rules : List (Rule α κ)} {invert : Bool} (h : ∀ r ∈ rules, Rule.Plain r) :
    Rule.Plain (.logical mode rules invert)

theorem Default.groups_off (r : Default α κ) (m : Metadata α κ) : r.groups m .off = r.results m := by
  simp [groups, results, Flags.off]

theorem Default.defers_off (r : Default α κ) : r.defers .off = false := rfl

theorem LogicalMode.combine_ofBool (mode : LogicalMode) (results : List Bool) :
    mode.combine (results.map Verdict.ofBool) = .ofBool (mode.holds results) := by
  cases mode
  · exact Verdict.all_ofBool results
  · exact Verdict.any_ofBool results

/-- Where the verdict on the groups is a truth value, so is that on the rule. -/
theorem Default.innerVerdict_ofBool (r : Default α κ) (m : Metadata α κ) {v : Flags → Groups → Verdict} {f : Flags}
    {b : Bool} (h : v f (r.groups m f) = .ofBool b) : r.innerVerdict m v f = .ofBool (r.matchItems m && b) := by
  rw [innerVerdict, h]
  cases r.matchItems m <;> cases b <;> simp [Verdict.settleIf, Verdict.ofBool]

theorem Default.ownGroups_ofBool (r : Default α κ) {f : Flags} (h : r.defers f = false) (groups : Groups) :
    r.ownGroups f groups = .ofBool groups.hold := by
  rw [ownGroups, h]
  cases groups.hold <;> rfl

theorem Verdict.map_ofBool {β : Type} {l : List β} {f : β → Verdict} {g : β → Bool} (h : ∀ r ∈ l, f r = .ofBool (g r)) :
    l.map f = (l.map g).map .ofBool := by
  rw [map_map]
  exact map_congr_left h

theorem Headless.verdict_off (m : Metadata α κ) (r : Headless α κ) :
    r.verdict m .off = .ofBool (r.meaning (fun _ => true) m) := by
  induction r using induct with
  | hdefault rule =>
    rw [verdict, meaning, rule.innerVerdict_ofBool m (rule.ownGroups_ofBool rule.defers_off _), rule.groups_off,
      Verdict.notIf_ofBool]
    cases rule.allItemsEmpty <;> rfl
  | hlogical mode rules invert ih =>
    rw [verdict, meaning, verdictList_eq, meanings_eq, show Flags.off.reset = .off from rfl, Verdict.map_ofBool ih,
      mode.combine_ofBool, Verdict.notIf_ofBool]

theorem RuleSetItem.setVerdict_off (m : Metadata α κ) (outer : Groups) (rules : List (Headless α κ)) :
    setVerdict m outer .off rules = .ofBool (setMeaning (fun _ => true) m outer rules) := by
  rw [setVerdict, setMeaning]
  cases mergeableRuleIn rules with
  | some branch =>
    simp only [mergedVerdict, Default.defers_off, Default.groups_off, Bool.false_and]
    cases branch.matchItems m && (outer.merge (branch.results m)).hold <;> rfl
  | none =>
    have hany : Verdict.any (rules.map fun r => r.verdict m .off) =
        .ofBool (rules.any (meaning (fun _ => true) m)) := by
      rw [Verdict.map_ofBool fun r _ => r.verdict_off m, Verdict.any_ofBool, any_map]
      rfl
    simp only [hany]
    cases outer.hold <;> rfl

theorem RuleSetItem.setsVerdict_off (m : Metadata α κ) (outer : Groups) (sets : List (List (Headless α κ))) :
    setsVerdict m false outer .off sets = .ofBool (sets.any (setMeaning (fun _ => true) m outer)) := by
  induction sets with
  | nil => rfl
  | cons rules sets ih =>
    rw [setsVerdict, setVerdict_off, any_cons, ih]
    cases setMeaning (fun _ => true) m outer rules <;> rfl

theorem Default.verdict_off (r : Default α κ) {ruleSet : Option (RuleSetItem α κ)} (h : ∀ item ∈ ruleSet, item.Plain)
    (m : Metadata α κ) : r.verdict ruleSet m .off = .ofBool (r.meaning (fun _ => true) ruleSet m) := by
  have hgroups : r.groupsVerdict ruleSet m .off (r.results m) =
      .ofBool (groupsMeaning (fun _ => true) ruleSet m (r.results m)) := by
    cases ruleSet with
    | none => exact r.ownGroups_ofBool r.defers_off _
    | some item =>
      obtain ⟨hsource, hempty, hdomain⟩ := h item rfl
      have hnested : item.nested .off = .off := by
        rw [RuleSetItem.nested, hsource, hempty]
        rfl
      simp only [groupsVerdict, RuleSetItem.verdict, hdomain, Bool.false_eq_true, if_false, hnested, defers_off]
      exact RuleSetItem.setsVerdict_off m _ _
  rw [verdict, meaning, r.innerVerdict_ofBool m ((congrArg _ (r.groups_off m)).trans hgroups), Verdict.notIf_ofBool]
  cases r.allItemsEmpty && ruleSet.isNone <;> rfl

theorem Rule.verdict_off (m : Metadata α κ) {r : Rule α κ} (h : r.Plain) :
    r.verdict m .off = .ofBool (r.meaning (fun _ => true) m) := by
  induction h with
  | default h =>
    rw [verdict, meaning]
    exact Default.verdict_off _ h m
  | @logical mode rules invert _ ih =>
    rw [verdict, meaning, verdictList_eq, meanings_eq, show Flags.off.reset = .off from rfl, Verdict.map_ofBool ih,
      mode.combine_ofBool, Verdict.notIf_ofBool]

namespace Rule

theorem match_congr (r : Rule α κ) (m : Metadata α κ) {c c' : Cache} (hc : c.ruleSetDomainOnly = false)
    (h : c'.resetRuleCache.toFlags = c.resetRuleCache.toFlags) :
    (r.match m c'.resetRuleCache).1 = (r.match m c.resetRuleCache).1 := by
  have hc' : c'.resetRuleCache.ruleSetDomainOnly = false := by
    have : c'.resetRuleCache.toFlags.ruleSetDomainOnly = c.resetRuleCache.toFlags.ruleSetDomainOnly := by rw [h]
    exact this.trans hc
  rw [(r.match_tells m c'.resetRuleCache rfl hc').matched, (r.match_tells m c.resetRuleCache rfl hc).matched, h]

theorem matchEach_eq (m : Metadata α κ) (rules : List (Rule α κ)) {c : Cache} (hc : c.ruleSetDomainOnly = false) :
    matchEach m rules c = rules.map fun r => (r.match m c.resetRuleCache).1 := by
  induction rules generalizing c with
  | nil => rfl
  | cons rule rules ih =>
    have hflags : (rule.match m c.resetRuleCache).2.toFlags = c.resetRuleCache.toFlags :=
      (rule.match_tells m c.resetRuleCache rfl hc).flags
    have hc' : (rule.match m c.resetRuleCache).2.ruleSetDomainOnly = false := by
      have : (rule.match m c.resetRuleCache).2.toFlags.ruleSetDomainOnly =
        c.resetRuleCache.toFlags.ruleSetDomainOnly := by rw [hflags]
      exact this.trans hc
    rw [matchEach, map_cons]
    change _ :: matchEach m rules _ = _
    rw [ih hc']
    refine congrArg _ (map_congr_left fun r _ => r.match_congr m hc ?_)
    change (rule.match m c.resetRuleCache).2.toFlags.reset = c.toFlags.reset
    rw [hflags]
    rfl

/-- `Match` returns the meaning of the rule, where a default rule without items holds even
if it is inverted, and rules matched one after another do not affect each other. -/
theorem match_meaning (m : Metadata α κ) {rules : List (Rule α κ)} (hplain : ∀ r ∈ rules, r.Plain) {c : Cache}
    (hignore : c.ignoreDestinationIPCIDRMatch = false) (hdomain : c.ruleSetDomainOnly = false) :
    (∀ r ∈ rules, (r.match m c.resetRuleCache).1 = r.meaning (fun _ => true) m) ∧
      matchEach m rules c = rules.map fun r => (r.match m c.resetRuleCache).1 := by
  refine ⟨fun r hr => ?_, matchEach_eq m rules hdomain⟩
  have hoff : c.resetRuleCache.toFlags = .off := by
    have hs : c.resetRuleCache.toFlags =
        ⟨false, false, c.ignoreDestinationIPCIDRMatch, c.ruleSetDomainOnly⟩ := rfl
    rw [hs, hignore, hdomain]
    rfl
  rw [(r.match_tells m c.resetRuleCache rfl hdomain).matched, hoff, r.verdict_off m (hplain r hr)]
  cases r.meaning (fun _ => true) m <;> rfl

end Rule

/-- A default rule of one list of plain items. -/
def onlyItems (items : List (Connection Nat Unit → Bool)) (invert : Bool) : Default Nat Unit :=
  ⟨items, [], [], [], [], [], invert⟩

/-- A connection from address 1 to the domain that resolved to address 2. -/
def someMetadata : Metadata Nat Unit :=
  ⟨⟨1, none, [2], ()⟩, none, fun _ => none, false⟩

def cleanCache : Cache := ⟨.off, 0#8, false⟩

/-- An IP range in a set is merged with the rule, next to a set of two rules and an inverted rule. -/
def sampleRules : List (Rule Nat Unit) :=
  [.logical .and
    [.default { onlyItems [] false with sourceAddressItems := [fun c => c.source == 1] }
      (some
        { setList := [[.default ⟨{ onlyItems [] false with destinationIPCIDRItems := [.ipCIDR (· == 2)] }, by simp⟩]]
          ipCidrMatchSource := false
          ipCidrAcceptEmpty := false
          domainOnly := false })
      none,
      .default (onlyItems [fun c => c.source == 2] true) none none]
    false,
    .default (onlyItems [fun c => c.source == 1] true) none none]

namespace Rule

theorem match_meaning_sample :
    (∀ r ∈ sampleRules, (r.match someMetadata cleanCache.resetRuleCache).1 =
      r.meaning (fun _ => true) someMetadata) ∧
      matchEach someMetadata sampleRules cleanCache = [true, false] := by
  have hplain : ∀ r ∈ sampleRules, r.Plain := by
    simp only [sampleRules, mem_cons, not_mem_nil, or_false, forall_eq_or_imp, forall_eq]
    refine ⟨.logical ?_, .default nofun⟩
    simp only [mem_cons, not_mem_nil, or_false, forall_eq_or_imp, forall_eq]
    refine ⟨.default fun item hitem => ?_, .default nofun⟩
    cases hitem
    exact ⟨rfl, rfl, rfl⟩
  have h := match_meaning someMetadata hplain (c := cleanCache) rfl rfl
  refine ⟨h.1, ?_⟩
  rw [h.2]
  decide +kernel

def blank : Rule Nat Unit := .default (onlyItems [] true) none none

/-- The rule that refers to a set of the blank rule. -/
def refersToBlank : Rule Nat Unit :=
  .default (onlyItems [] false)
    (some ⟨[[.default ⟨onlyItems [] true, by simp [onlyItems]⟩]], false, false, false⟩) none

/-- An inverted rule without items matches, alone or in a set. -/
theorem blank_matches_inverted :
    (blank.Plain ∧ (blank.match someMetadata cleanCache.resetRuleCache).1 = true ∧
      blank.meaning (fun invert => !invert) someMetadata = false) ∧
    refersToBlank.Plain ∧ (refersToBlank.match someMetadata cleanCache.resetRuleCache).1 = true ∧
      refersToBlank.meaning (fun invert => !invert) someMetadata = false := by
  refine ⟨⟨.default nofun, by decide +kernel⟩, .default fun item hitem => ?_, by decide +kernel⟩
  cases hitem
  exact ⟨rfl, rfl, rfl⟩

/-- The order of the rules of a logical rule makes no difference, whatever they leave open. -/
theorem match_logical_perm (m : Metadata α κ) {rules rules' : List (Rule α κ)} (h : rules.Perm rules')
    (mode : LogicalMode)
    (invert : Bool) {c : Cache} (hc : c.ruleSetDomainOnly = false) :
    ((logical mode rules invert).match m c.resetRuleCache).1 =
      ((logical mode rules' invert).match m c.resetRuleCache).1 := by
  have hcombine : ∀ f, mode.combine (rules.map f) = mode.combine (rules'.map f) := by
    intro f
    cases mode with
    | and =>
      refine (h.map f).foldr_eq' (f := Verdict.and) (fun u _ v _ w => ?_) _
      cases u <;> cases v <;> cases w <;> rfl
    | or =>
      refine (h.map f).foldr_eq' (f := Verdict.or) (fun u _ v _ w => ?_) _
      cases u <;> cases v <;> cases w <;> rfl
  rw [(match_tells m _ c.resetRuleCache rfl hc).matched, (match_tells m _ c.resetRuleCache rfl hc).matched, verdict,
    verdict, verdictList_eq, verdictList_eq, hcombine]

theorem match_logical_perm_sample : ((logical .and sampleRules false).match someMetadata cleanCache.resetRuleCache).1 =
    ((logical .and sampleRules.reverse false).match someMetadata cleanCache.resetRuleCache).1 :=
  match_logical_perm someMetadata (reverse_perm _).symm .and false rfl

end Rule
end SingBox.Rules
