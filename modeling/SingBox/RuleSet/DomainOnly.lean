import SingBox.RuleSet.Options

/-!
# References for the domain alone

A reference with `rule_set_domain_only` switches the conditions on ports and destination addresses
off, and takes a set only if a domain matched on the way. So its answer is the same for all
connections to one domain.
-/
namespace SingBox.RuleSet

open Lib.Strings NetIP List Function Bool
open Rules

variable {ρ : Type} {α κ : Type}

/-! ## What a match leaves in the cache -/

variable {c : Cache}

/-- A rule that doesn't hold, or is inverted, takes the note back. -/
theorem matchDefault_domainMatched (empty invert : Bool) {inner : Run}
    (h : (matchDefault empty invert inner c).2.ruleSetDomainMatched = true) :
    c.ruleSetDomainMatched = true ∨ (invert = false ∧ (inner c).2.ruleSetDomainMatched = true) := by
  unfold matchDefault at h
  rcases hres : inner c with ⟨matched, c'⟩
  rw [hres] at h
  cases empty <;> cases invert <;> cases matched <;> simp_all

theorem matchLogical_domainMatched (mode : LogicalMode) (invert : Bool) {rules : List Run}
    (h : (matchLogical mode invert rules c).2.ruleSetDomainMatched = true) :
    c.ruleSetDomainMatched = true ∨ (mode.loop rules c).2.2.ruleSetDomainMatched = true := by
  unfold matchLogical at h
  rcases hres : mode.loop rules c with ⟨matched, deferred, c'⟩
  rw [hres] at h
  cases invert <;> cases matched <;> simp_all [Cache.restore]

/-! ## The same answer for the same domain -/

/-- Neither ports nor destination addresses count under these switches. -/
structure DomainAlone (f : Flags) : Prop where
  only : f.ruleSetDomainOnly = true
  ignored : f.ignoreDestinationIPCIDRMatch = true
  notSource : f.ipCIDRMatchSource = false

/-- The two are about the same domain, and differ at most in ports, destination addresses and DNS responses. -/
structure SameDomain (m m' : Metadata Addr (Ports ρ)) : Prop where
  source : m.connection.source = m'.connection.source
  context : m.connection.other.context = m'.connection.other.context

section
variable {m m' : Metadata Addr (Ports ρ)} (h : SameDomain m m')
include h

variable {c : Cache}

theorem match_default_sameDomain (i : Items ρ) (invert : Bool) (hc : DomainAlone c.toFlags) :
    (Headless.default (i.rule invert)).match m c = (Headless.default (i.rule invert)).match m' c := by
  have hitems : (i.rule invert).matchItems m = (i.rule invert).matchItems m' := by
    simp [Default.matchItems, Items.rule, all_map, comp_def, h.context]
  have hdomain : Default.matchAnyItem m (i.rule invert).destinationAddressItems =
      Default.matchAnyItem m' (i.rule invert).destinationAddressItems := by
    simp [Default.matchAnyItem, Items.rule, any_map, comp_def, h.context]
  have hgroups : (i.rule invert).groups m c.toFlags = (i.rule invert).groups m' c.toFlags := by
    simp [Default.groups, Items.rule, comp_def, h.context, h.source, hc.only, hc.ignored, hc.notSource]
  simp only [Headless.match, matchDefault, Default.matchInner, Default.evaluateGroups_eq, hitems, hdomain, hgroups]

end

/-- A reference to sets for the domain alone. -/
def domainOnlyItem (sets : List (List (Headless α κ))) (acceptEmpty : Bool) : RuleSetItem α κ :=
  ⟨sets, false, acceptEmpty, true⟩

theorem matchSets_sameDomain {m m' : Metadata Addr (Ports ρ)} (h : SameDomain m m')
    (all sets : List (List (Headless Addr (Ports ρ)))) (acceptEmpty : Bool)
    (hb : ∀ rules ∈ sets, ∀ r ∈ rules, Built r) (c : Cache) :
    (domainOnlyItem all acceptEmpty).matchSets m sets c = (domainOnlyItem all acceptEmpty).matchSets m' sets c := by
  refine RuleSetItem.matchSets_congr (P := DomainAlone) (R := Built) (fun c hc => ⟨hc.only, hc.ignored, rfl⟩)
    (fun mode rules invert hr => ?_) (fun rule hr c hc => ?_) _ (fun _ => ⟨rfl, rfl, rfl⟩) hb c
  · cases hr with
    | logical hr => exact hr
  · cases hr with
    | default i invert => exact match_default_sameDomain h i invert hc

/-! ## The domain that matched -/

/-- The default rules of a rule, at every depth. -/
inductive HasDefault (rule : DefaultHeadless α κ) : Headless α κ → Prop
  | default : HasDefault rule (.default rule)
  | logical {mode : LogicalMode} {rules : List (Headless α κ)} {invert : Bool} {r : Headless α κ} (hr : r ∈ rules)
    (h : HasDefault rule r) : HasDefault rule (.logical mode rules invert)

/-- One of its default rules has an item that matches the domain, and isn't inverted. -/
def DomainMatches (m : Metadata α κ) (r : Headless α κ) : Prop :=
  ∃ rule, HasDefault rule r ∧ rule.invert = false ∧ Default.matchAnyItem m rule.destinationAddressItems = true

/-- The note that a domain matched is made by one of the rules. -/
theorem noted_match (m : Metadata α κ) (c : Cache) {rules : List (Headless α κ)}
    (h : ∀ r ∈ rules, ∀ c : Cache, (r.match m c).2.ruleSetDomainMatched = true →
      c.ruleSetDomainMatched = true ∨ DomainMatches m r)
    (reset : Cache → Cache) (hreset : ∀ c, (reset c).ruleSetDomainMatched = c.ruleSetDomainMatched) :
    ∀ r ∈ rules, ∀ c',
      (c'.ruleSetDomainMatched = true → c.ruleSetDomainMatched = true ∨ ∃ r ∈ rules, DomainMatches m r) →
      (r.match m (reset c')).2.ruleSetDomainMatched = true →
        c.ruleSetDomainMatched = true ∨ ∃ r ∈ rules, DomainMatches m r := by
  intro r hr c' hc' hmatched
  rcases h r hr _ hmatched with hold | hdomain
  · exact hc' (hreset c' ▸ hold)
  · exact .inr ⟨r, hr, hdomain⟩

theorem match_domainMatched (m : Metadata α κ) (r : Headless α κ) (c : Cache)
    (h : (r.match m c).2.ruleSetDomainMatched = true) : c.ruleSetDomainMatched = true ∨ DomainMatches m r := by
  induction r using Headless.induct generalizing c with
  | hdefault rule =>
    rw [Headless.match] at h
    refine (matchDefault_domainMatched _ _ h).elim .inl fun hrule => ?_
    obtain ⟨hinvert, hinner⟩ := hrule
    rw [(matchInner_cache rule.toDefault m c).2, or_eq_true] at hinner
    exact hinner.imp_right fun hdomain => ⟨rule, .default, hinvert, hdomain⟩
  | hlogical mode rules invert ih =>
    rw [Headless.match, Headless.matchList_eq] at h
    refine (matchLogical_domainMatched mode invert h).elim .inl fun hloop => ?_
    have hrules : c.ruleSetDomainMatched = true ∨ ∃ r ∈ rules, DomainMatches m r := by
      cases mode with
      | and => exact matchEvery_cache (noted_match m c ih Cache.resetRuleCache fun _ => rfl) _ .inl hloop
      | or => exact matchSome_cache (noted_match m c ih Cache.resetRuleCache fun _ => rfl) _ _ .inl hloop
    refine hrules.imp_right ?_
    rintro ⟨r, hr, rule, hrule, hmatch⟩
    exact ⟨rule, .logical hr hrule, hmatch⟩

variable {c : Cache}

theorem matchAnyHeadlessRule_domainMatched (m : Metadata α κ) (rules : List (Headless α κ))
    (h : (matchAnyHeadlessRule m rules c).2.ruleSetDomainMatched = true) :
    c.ruleSetDomainMatched = true ∨ ∃ r ∈ rules, DomainMatches m r := by
  have hloop : (matchSome Cache.resetRuleMatchCache (rules.map (Headless.match m)) false 0#8
      c).2.2.ruleSetDomainMatched = true := by
    unfold matchAnyHeadlessRule at h
    rcases hres : matchSome Cache.resetRuleMatchCache (rules.map (Headless.match m)) false 0#8 c with
      ⟨matched, deferred, c'⟩
    rw [hres] at h
    cases matched <;> simpa [Cache.restore] using h
  exact matchSome_cache (noted_match m c (fun r _ => match_domainMatched m r) Cache.resetRuleMatchCache
    fun _ => rfl) _ _ .inl hloop

/-- A set that is taken matches, and a domain of it does. -/
theorem exists_of_matchSets {m : Metadata α κ} {all sets : List (List (Headless α κ))} {acceptEmpty : Bool}
    (h : ((domainOnlyItem all acceptEmpty).matchSets m sets c).1 = true) :
    ∃ rules ∈ sets, (matchAnyHeadlessRule m rules ((domainOnlyItem all acceptEmpty).prepareNestedMatch c)).1 = true ∧
      ∃ r ∈ rules, DomainMatches m r := by
  induction sets generalizing c with
  | nil => cases h
  | cons rules sets ih =>
    simp only [RuleSetItem.matchSets] at h
    split at h
    next hset =>
      rw [and_eq_true, or_eq_true] at hset
      have hmatched := hset.2.resolve_left (by simp [domainOnlyItem])
      refine ⟨rules, mem_cons_self, hset.1, ?_⟩
      exact (matchAnyHeadlessRule_domainMatched m rules hmatched).resolve_left (by
        simp [RuleSetItem.prepareNestedMatch, domainOnlyItem])
    · obtain ⟨rules', hmem, hmatch, hdomain⟩ := ih h
      exact ⟨rules', mem_cons_of_mem rules hmem, hmatch, hdomain⟩

/-- The answer depends on the domain alone; and where it is positive, a set matches and has a default rule with an item
that matches the domain. -/
theorem domainOnly_match {μ δ : Type} (lib : Library μ δ ρ) (options : List (List (HeadlessRule μ δ)))
    (sets : List (List (Headless Addr (Ports ρ)))) (hsets : options.map (newRules lib) = sets.map .ok)
    (acceptEmpty : Bool) (m : Metadata Addr (Ports ρ)) (c : Cache) :
    (∀ m', SameDomain m m' →
      ((domainOnlyItem sets acceptEmpty).match m' c).1 = ((domainOnlyItem sets acceptEmpty).match m c).1) ∧
    (((domainOnlyItem sets acceptEmpty).match m c).1 = true → ∃ rules ∈ sets,
      (matchAnyHeadlessRule m rules ((domainOnlyItem sets acceptEmpty).prepareNestedMatch c)).1 = true ∧
      ∃ r ∈ rules, ∃ rule, HasDefault rule r ∧ Default.matchAnyItem m rule.destinationAddressItems = true) := by
  have hbuilt : ∀ rules ∈ sets, ∀ r ∈ rules, Built r := by
    intro rules hrules
    have hmem : Except.ok rules ∈ options.map (newRules lib) := by
      rw [hsets]
      exact mem_map_of_mem hrules
    obtain ⟨o, _, ho⟩ := mem_map.mp hmem
    exact newRules_built lib ho
  refine ⟨fun m' h => ?_, fun h => ?_⟩
  · have := matchSets_sameDomain h sets sets acceptEmpty hbuilt c
    exact (congrArg Prod.fst this).symm
  · obtain ⟨rules, hmem, hmatch, r, hr, rule, hrule, _, hdomain⟩ := exists_of_matchSets h
    exact ⟨rules, hmem, hmatch, r, hr, rule, hrule, hdomain⟩

def plainLibrary : Library (List Bytes) (List Bytes) Unit where
  toLower := id
  newMatcher domains _ _ := domains
  matcherMatch domains := domains.contains
  newAdGuardMatcher := id
  adGuardMatch patterns := patterns.contains
  compileRegexp _ := .error "no expressions"
  buildIPSet _ := .ok []
  contains _ _ := false
  parsePortRange _ := .error "no ranges"
  processName _ _ := false
  processPath _ _ := false
  processPathRegex _ _ := false
  packageName _ _ := false
  packageNameRegex _ _ := false
  networkManager := none

/-- A set of one port or one name. -/
def portOrName : List (HeadlessRule (List Bytes) (List Bytes)) :=
  [.logical .or [.default { port := [443] }, .default { domain := [[97]] }] false]

def portOrNameRules : List (Headless Addr (Ports Unit)) := (newRules plainLibrary portOrName).toOption.getD []

def toName (port : UInt16) (destination : Option Addr) : Metadata Addr (Ports Unit) :=
  ⟨⟨.zero, destination, [], ⟨0, port, ⟨[97], [], [], 0, ()⟩⟩⟩, none, fun _ => none, false⟩

def noCache : Cache := ⟨⟨false, false, false, false⟩, 0#8, false⟩

theorem domainOnly_portOrName :
    ((domainOnlyItem [portOrNameRules] false).match (toName 80 none) noCache).1 = true ∧
    ((domainOnlyItem [portOrNameRules] false).match (toName 443 (some .zero)) noCache).1 = true ∧
    ∃ rules ∈ [portOrNameRules],
      (matchAnyHeadlessRule (toName 80 none) rules
        ((domainOnlyItem [portOrNameRules] false).prepareNestedMatch noCache)).1 = true ∧
      ∃ r ∈ rules, ∃ rule, HasDefault rule r ∧
        Default.matchAnyItem (toName 80 none) rule.destinationAddressItems = true := by
  have hmatch : ((domainOnlyItem [portOrNameRules] false).match (toName 80 none) noCache).1 = true := by decide +kernel
  obtain ⟨hsame, hdomain⟩ := domainOnly_match plainLibrary [portOrName] [portOrNameRules] rfl false
    (toName 80 none) noCache
  exact ⟨hmatch, (hsame (toName 443 (some .zero)) ⟨rfl, rfl⟩).trans hmatch, hdomain hmatch⟩

end SingBox.RuleSet
