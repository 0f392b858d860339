import SingBox.Rules.Meaning

/-!
# The switches of a reference inside logical rules

A reference to rule sets may say that IP ranges are about the source address, or hold of a
connection without addresses. A logical rule puts these switches back before each of its rules, so
that only the rules directly in the set see them. Where nothing is left open a match is a
truth value, and it is said here which.
-/
namespace SingBox.Rules

open Lib List Bool

variable {α κ : Type}

-- the meaning of a rule under the same switches at every depth
mutual

def Headless.read (m : Metadata α κ) (f : Flags) : Headless α κ → Bool
  | .default rule =>
    if rule.allItemsEmpty then true else rule.invert ^^ (rule.matchItems m && (rule.groups m f).hold)
  | .logical mode rules invert => invert ^^ mode.holds (Headless.reads m f rules)

def Headless.reads (m : Metadata α κ) (f : Flags) : List (Headless α κ) → List Bool
  | [] => []
  | rule :: rules => rule.read m f :: Headless.reads m f rules

end

theorem Headless.reads_eq (m : Metadata α κ) (f : Flags) (rules : List (Headless α κ)) :
    Headless.reads m f rules = rules.map (Headless.read m f) := by
  induction rules with
  | nil => rfl
  | cons rule rules ih => rw [reads, ih, map_cons]

/-- The switches a rule is matched under, if it finds `f`. -/
def Headless.sees (f : Flags) : Headless α κ → Flags
  | .default _ => f
  | .logical .. => f.reset

variable {f : Flags}

theorem Default.defers_of_not_ignore (r : Default α κ) (h : f.ignoreDestinationIPCIDRMatch = false) :
    r.defers f = false := by
  simp [defers, h]

/-- A rule is read under the switches it finds, a logical one with the switches of the reference put back. -/
theorem Headless.verdict_read (m : Metadata α κ) (r : Headless α κ) (hi : f.ignoreDestinationIPCIDRMatch = false) :
    r.verdict m f = .ofBool (r.read m (r.sees f)) := by
  induction r using Headless.induct generalizing f with
  | hdefault rule =>
    rw [verdict, sees, read, rule.innerVerdict_ofBool m (rule.ownGroups_ofBool (rule.defers_of_not_ignore hi) _),
      Verdict.notIf_ofBool]
    cases rule.allItemsEmpty <;> rfl
  | hlogical mode rules invert ih =>
    have hlist : (rules.map fun r => r.verdict m f.reset) = (rules.map (Headless.read m f.reset)).map .ofBool := by
      rw [map_map]
      refine map_congr_left fun r hr => (ih r hr (f := f.reset) hi).trans ?_
      cases r <;> rfl
    rw [verdict, sees, read, verdictList_eq, reads_eq, hlist, mode.combine_ofBool, Verdict.notIf_ofBool]

/-- Where destination addresses are not ignored, the match of a set of one rule comes to its value, and leaves nothing
open. -/
theorem matchAnyHeadlessRule_one (m : Metadata α κ) (r : Headless α κ) {c : Cache}
    (hd : c.deferredIPCIDRMatchGroups = 0#8) (hi : c.ignoreDestinationIPCIDRMatch = false) :
    (matchAnyHeadlessRule m [r] c).1 = r.read m (r.sees c.toFlags) ∧
      ((matchAnyHeadlessRule m [r] c).1 = true → (matchAnyHeadlessRule m [r] c).2.deferredIPCIDRMatchGroups = 0#8) := by
  have hverdict : Verdict.any ([r].map fun r => r.verdict m c.toFlags) = .ofBool (r.read m (r.sees c.toFlags)) := by
    rw [map_singleton, r.verdict_read m hi]
    cases r.read m (r.sees c.toFlags) <;> rfl
  obtain ⟨hm, -, hdef⟩ := matchAnyHeadlessRule_tells m [r] c hd (.inr hi)
  beta_reduce at hm hdef
  rw [hverdict] at hm hdef
  rw [hm]
  cases hread : r.read m (r.sees c.toFlags) with
  | false => exact ⟨rfl, nofun⟩
  | true =>
    rw [hread] at hdef
    exact ⟨rfl, fun _ => hdef nofun⟩

theorem Default.hold_of_allItemsEmpty (r : Default α κ) (m : Metadata α κ) (f : Flags) (h : r.allItemsEmpty = true) :
    (r.matchItems m && (r.groups m f).hold) = true := by
  simp only [allItemsEmpty, and_eq_true, List.isEmpty_iff] at h
  obtain ⟨⟨⟨⟨⟨hitems, hsource⟩, hsourcePort⟩, hdestination⟩, hranges⟩, hport⟩ := h
  simp [matchItems, groups, Groups.hold, fulfilled, hitems, hsource, hsourcePort, hdestination, hranges, hport]

theorem mergeableRuleIn_eq_some {r : Headless α κ} {branch : DefaultHeadless α κ}
    (h : mergeableRuleIn [r] = some branch) : r = .default branch ∧ branch.invert = false := by
  cases r with
  | logical => cases h
  | default rule =>
    simp only [mergeableRuleIn, Option.ite_none_left_eq_some, Option.some.injEq, not_eq_true] at h
    exact ⟨by rw [h.2], h.2 ▸ h.1⟩

namespace RuleSetItem

/-- A reference to the set whose only rule is `r`. -/
def only (matchSource acceptEmpty : Bool) (r : Headless α κ) : RuleSetItem α κ :=
  ⟨[[r]], matchSource, acceptEmpty, false⟩

variable (matchSource acceptEmpty : Bool) (r : Headless α κ) (m : Metadata α κ) (c : Cache)

theorem match_only (hi : c.ignoreDestinationIPCIDRMatch = false) :
    ((only matchSource acceptEmpty r).match m c).1 =
      r.read m (r.sees ((only matchSource acceptEmpty r).nested c.toFlags)) := by
  set item := only matchSource acceptEmpty r
  have hm := (matchAnyHeadlessRule_one m r (c := item.prepareNestedMatch c) rfl hi).1
  change _ = r.read m (r.sees (item.nested c.toFlags)) at hm
  change (item.matchSets m [[r]] c).1 = _
  simp only [matchSets, hm]
  cases r.read m (r.sees (item.nested c.toFlags)) <;> rfl

theorem mergeWith_none (g : GroupMatch) : GroupMatch.mergeWith ⟨0#8, 0#8⟩ g = g := by
  simp [GroupMatch.mergeWith]

/-- Without groups of a rule around it, a set is matched in the same way. -/
theorem matchWithOuterGroups_only (hi : c.ignoreDestinationIPCIDRMatch = false) :
    ((only matchSource acceptEmpty r).matchWithOuterGroups m ⟨0#8, 0#8⟩ c).1 =
      r.read m (r.sees ((only matchSource acceptEmpty r).nested c.toFlags)) := by
  set item := only matchSource acceptEmpty r
  have hprepare : item.prepareNestedMatch c = ⟨item.nested c.toFlags, 0#8, c.ruleSetDomainMatched⟩ := rfl
  change (item.matchBranches m ⟨0#8, 0#8⟩ c [[r]] false 0#8 c).1 = _
  rw [matchBranches, hprepare]
  cases hmerge : mergeableRuleIn [r] with
  | none =>
    obtain ⟨hm, hclosed⟩ := matchAnyHeadlessRule_one m r
      (c := ⟨item.nested c.toFlags, 0#8, c.ruleSetDomainMatched⟩) rfl hi
    rcases hres : matchAnyHeadlessRule m [r] ⟨item.nested c.toFlags, 0#8, c.ruleSetDomainMatched⟩ with ⟨matched, c'⟩
    rw [hres] at hm hclosed
    simp only at hm hclosed
    simp only [← hm, show GroupMatch.done ⟨0#8, 0#8⟩ = true from rfl, if_true]
    cases matched with
    | false => rfl
    | true => simp [hclosed rfl]
  | some branch =>
    obtain ⟨rfl, hinvert⟩ := mergeableRuleIn_eq_some hmerge
    have hread : (Headless.default branch).read m (item.nested c.toFlags) =
        (branch.matchItems m && (branch.groups m (item.nested c.toFlags)).hold) := by
      rw [Headless.read, hinvert, false_xor]
      split
      · exact (branch.hold_of_allItemsEmpty m _ ‹_›).symm
      · rfl
    have hdefers := branch.defers_of_not_ignore (f := item.nested c.toFlags) hi
    rw [Headless.sees, hread]
    simp only [evaluateForMerge_eq, hdefers]
    cases branch.matchItems m with
    | false => rfl
    | true =>
      simp only [if_true, mergeWith_none, Groups.toMatch_done, Bool.true_and]
      cases (branch.groups m (item.nested c.toFlags)).hold with
      | false => rfl
      | true => simp [opened]

end RuleSetItem

/-- The rule in a logical rule of its own. -/
def Headless.within (mode : LogicalMode) (r : Headless α κ) : Headless α κ := .logical mode [r] false

theorem Headless.read_within (mode : LogicalMode) (r : Headless α κ) (m : Metadata α κ) (f : Flags) :
    (r.within mode).read m f = r.read m f := by
  cases mode <;> simp [within, read, reads, LogicalMode.holds]

open RuleSetItem in
/-- The switches of a reference reach the rules at every depth: a logical rule around the only rule of the set
changes nothing, and all of it is read under the switches. -/
structure SwitchesReach (matchSource acceptEmpty : Bool) (r : Headless α κ) (m : Metadata α κ) (c : Cache) : Prop where
  within : ∀ mode, ((only matchSource acceptEmpty (r.within mode)).match m c).1 =
    ((only matchSource acceptEmpty r).match m c).1
  merged : ∀ mode, ((only matchSource acceptEmpty (r.within mode)).matchWithOuterGroups m ⟨0#8, 0#8⟩ c).1 =
    ((only matchSource acceptEmpty r).matchWithOuterGroups m ⟨0#8, 0#8⟩ c).1
  depth : ((only matchSource acceptEmpty r).match m c).1 =
    r.read m ((only matchSource acceptEmpty r).nested c.toFlags)

open RuleSetItem in
/-- They reach every depth exactly where they make no difference to the value of the rule. -/
theorem switchesReach_iff (matchSource acceptEmpty : Bool) (r : Headless α κ) (m : Metadata α κ) (c : Cache)
    (hi : c.ignoreDestinationIPCIDRMatch = false) :
    SwitchesReach matchSource acceptEmpty r m c ↔
      r.read m ((only matchSource acceptEmpty r).nested c.toFlags) = r.read m c.toFlags.reset := by
  have hmatch := match_only matchSource acceptEmpty r m c hi
  have hmerged := matchWithOuterGroups_only matchSource acceptEmpty r m c hi
  -- the rule itself finds the switches put back inside a logical one
  have hwithin : ∀ mode, (r.within mode).read m
      ((r.within mode).sees ((only matchSource acceptEmpty (r.within mode)).nested c.toFlags)) =
        r.read m c.toFlags.reset :=
    fun mode => r.read_within mode m _
  constructor
  · intro h
    cases r with
    | default rule =>
      have hor := h.within .or
      rw [match_only _ _ _ _ _ hi, hwithin, hmatch] at hor
      exact hor.symm
    | logical mode rules invert =>
      have hdepth := h.depth
      rw [hmatch] at hdepth
      exact hdepth.symm
  · intro h
    have hsees : r.read m (r.sees ((only matchSource acceptEmpty r).nested c.toFlags)) = r.read m c.toFlags.reset := by
      cases r with
      | default rule => exact h
      | logical mode rules invert => rfl
    refine ⟨fun mode => ?_, fun mode => ?_, ?_⟩
    · rw [match_only _ _ _ _ _ hi, hwithin, hmatch, hsees]
    · rw [matchWithOuterGroups_only _ _ _ _ _ hi, hwithin, hmerged, hsees]
    · rw [hmatch, hsees, h]

/-- The switches change nothing of a rule: it has no range, or its ranges hold of the connection under the switches
exactly if they hold without, and stand alone where they move from the group of the destination to that of the
source. -/
def Default.Indifferent (m : Metadata α κ) (f : Flags) (r : Default α κ) : Prop :=
  r.destinationIPCIDRItems = [] ∨
    (∀ item ∈ r.destinationIPCIDRItems, item.match m f = item.match m f.reset) ∧
      (f.ipCIDRMatchSource = true → r.sourceAddressItems = [] ∧ r.destinationAddressItems = [])

-- the default rules of a rule, at every depth
mutual

def Headless.defaults : Headless α κ → List (DefaultHeadless α κ)
  | .default rule => [rule]
  | .logical _ rules _ => Headless.defaultsOf rules

def Headless.defaultsOf : List (Headless α κ) → List (DefaultHeadless α κ)
  | [] => []
  | rule :: rules => rule.defaults ++ Headless.defaultsOf rules

end

theorem Headless.mem_defaultsOf {rules : List (Headless α κ)} {r : Headless α κ} (hr : r ∈ rules)
    {rule : DefaultHeadless α κ} (h : rule ∈ r.defaults) : rule ∈ Headless.defaultsOf rules := by
  induction rules with
  | nil => cases hr
  | cons r' rules ih =>
    rw [defaultsOf, mem_append]
    rcases mem_cons.mp hr with rfl | hr
    · exact .inl h
    · exact .inr (ih hr)

theorem Default.Indifferent.hold {r : Default α κ} {m : Metadata α κ} (h : r.Indifferent m f)
    (hi : f.ignoreDestinationIPCIDRMatch = false) : (r.groups m f).hold = (r.groups m f.reset).hold := by
  rcases h with hnone | ⟨halike, halone⟩
  · simp only [groups, hnone, map_nil, ite_self, append_nil]
    rfl
  have hitems : r.destinationIPCIDRItems.map (AddressItem.match m f) =
      r.destinationIPCIDRItems.map (AddressItem.match m f.reset) := map_congr_left halike
  cases hsource : f.ipCIDRMatchSource with
  | false =>
    have hreset : f.reset.ipCIDRMatchSource = false := rfl
    simp only [groups, hitems, hsource, hreset, Bool.or_false]
    rfl
  | true =>
    obtain ⟨hno, hno'⟩ := halone hsource
    simp only [groups, Groups.hold, hitems, hsource, hno, hno', hi, Flags.reset, map_nil, nil_append, if_true,
      Bool.or_true, Bool.or_false, Bool.false_eq_true, if_false, fulfilled, isEmpty_nil, Bool.true_or, Bool.true_and,
      Bool.and_true]
    rw [Bool.and_comm (isEmpty _ || _)]

theorem Headless.read_reset {m : Metadata α κ} {r : Headless α κ} (hi : f.ignoreDestinationIPCIDRMatch = false)
    (h : ∀ rule ∈ r.defaults, rule.Indifferent m f) : r.read m f = r.read m f.reset := by
  induction r using Headless.induct with
  | hdefault rule => rw [read, read, (h rule (mem_singleton_self rule)).hold hi]
  | hlogical mode rules invert ih =>
    have hreads : rules.map (Headless.read m f) = rules.map (Headless.read m f.reset) :=
      map_congr_left fun r hr => ih r hr fun rule hrule => h rule (mem_defaultsOf hr hrule)
    rw [read, read, reads_eq, reads_eq, hreads]

open RuleSetItem in
/-- The switches reach every depth of rules whose ranges they do not concern. -/
theorem switchesReach_of_indifferent (matchSource acceptEmpty : Bool) (r : Headless α κ) (m : Metadata α κ) (c : Cache)
    (hi : c.ignoreDestinationIPCIDRMatch = false)
    (h : ∀ rule ∈ r.defaults, rule.Indifferent m ((only matchSource acceptEmpty r).nested c.toFlags)) :
    SwitchesReach matchSource acceptEmpty r m c :=
  (switchesReach_iff matchSource acceptEmpty r m c hi).mpr (Headless.read_reset hi h)

def rangeItems (a : Nat) : Default Nat Unit :=
  { onlyItems [] false with destinationIPCIDRItems := [.ipCIDR (· == a)] }

theorem rangeItems_ipCIDR (a : Nat) (i : AddressItem Nat) (hi : i ∈ (rangeItems a).destinationIPCIDRItems) :
    ∃ ipSet, i = .ipCIDR ipSet :=
  ⟨_, mem_singleton.mp hi⟩

/-- The rule of a range that holds the source address, or the destination. -/
def rangeRule (a : Nat) : Headless Nat Unit := .default ⟨rangeItems a, rangeItems_ipCIDR a⟩

/-- A range that holds neither address is alike under the switches, at any depth. -/
theorem switches_reach_both :
    SwitchesReach true false ((rangeRule 3).within .and) someMetadata cleanCache := by
  refine switchesReach_of_indifferent true false _ someMetadata cleanCache rfl fun rule hrule => .inr ⟨?_, ?_⟩
  · obtain rfl := mem_singleton.mp hrule
    intro item hitem
    obtain rfl := mem_singleton.mp hitem
    decide
  · obtain rfl := mem_singleton.mp hrule
    exact fun _ => ⟨rfl, rfl⟩

/-- In a logical rule the range is about the destination again. -/
theorem source_range_in_logical : ¬SwitchesReach true false (rangeRule 1) someMetadata cleanCache := by
  intro h
  have hor := h.within .or
  revert hor
  decide +kernel

end SingBox.Rules
