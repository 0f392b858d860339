import SingBox.Rules.Groups

/-!
# Matching of rules and rule sets

`Match` of default and logical rules, of rule sets and of the reference to them,
over the one rule cache they share. A rule set holds headless rules, which do not
refer to rule sets themselves.
-/
namespace SingBox.Rules

variable {α κ : Type}

/-- A call of `Match` on the cache. -/
abbrev Run := Cache → Bool × Cache

/-- `abstractDefaultRule.Match` around its `matchInner`. -/
def matchDefault (allItemsEmpty invert : Bool) (matchInner : Run) : Run := fun c =>
  if allItemsEmpty then (true, c)
  else
    let (matched, c') := matchInner c
    let c' := if !matched || invert then { c' with ruleSetDomainMatched := c.ruleSetDomainMatched } else c'
    if invert then
      if !matched then (true, { c' with deferredIPCIDRMatchGroups := 0#8 })
      else (c'.deferredIPCIDRMatchGroups != 0#8, c')
    else (matched, c')

namespace Default

variable (r : Default α κ) (m : Metadata α κ)

def matchItems : Bool := r.items.all fun item => item m.connection

/-- `matchInner`; a rule set is matched together with the groups of the rule. -/
def matchInner (matchWithOuterGroups : Option (GroupMatch → Run)) : Run := fun c =>
  let (groups, c) := r.evaluateGroups m c
  if !r.matchItems m then (false, c)
  else
    let (matched, c) :=
      match matchWithOuterGroups with
      | some matchWithOuterGroups => matchWithOuterGroups groups c
      | none => (groups.done, c)
    (matched,
      if matched then { c with deferredIPCIDRMatchGroups := c.deferredIPCIDRMatchGroups &&& ~~~groups.satisfied }
      else c)

def evaluateForMerge (c : Cache) : Option GroupMatch × Cache :=
  let (groups, c) := r.evaluateGroups m c
  (if r.matchItems m then some groups else none, c)

end Default

inductive LogicalMode where
  | and
  | or
  deriving DecidableEq

/-- The loop of an `and`: the result and the groups left open. -/
def matchEvery : List Run → MatchState → Cache → Bool × MatchState × Cache
  | [], deferred, c => (true, deferred, c)
  | rule :: rules, deferred, c =>
    match rule c.resetRuleCache with
    | (false, c) => (false, 0#8, c)
    | (true, c) => matchEvery rules (deferred ||| c.deferredIPCIDRMatchGroups) c

/-- The loop of an `or` and of a rule set: it goes on behind a rule that is left open. -/
def matchSome (reset : Cache → Cache) : List Run → Bool → MatchState → Cache → Bool × MatchState × Cache
  | [], matched, deferred, c => (matched, deferred, c)
  | rule :: rules, matched, deferred, c =>
    match rule (reset c) with
    | (false, c) => matchSome reset rules matched deferred c
    | (true, c) =>
      if c.deferredIPCIDRMatchGroups == 0#8 && (!c.ruleSetDomainOnly || c.ruleSetDomainMatched) then
        (true, 0#8, c)
      else matchSome reset rules true (deferred ||| c.deferredIPCIDRMatchGroups) c

def LogicalMode.loop : LogicalMode → List Run → Cache → Bool × MatchState × Cache
  | .and, rules, c => matchEvery rules 0#8 c
  | .or, rules, c => matchSome Cache.resetRuleCache rules false 0#8 c

/-- `abstractLogicalRule.Match`. -/
def matchLogical (mode : LogicalMode) (invert : Bool) (rules : List Run) : Run := fun c =>
  let (matched, deferred, c') := mode.loop rules c
  let c' := c.restore c'
  let c' := if !matched || invert then { c' with ruleSetDomainMatched := c.ruleSetDomainMatched } else c'
  let c' :=
    if matched then { c' with deferredIPCIDRMatchGroups := c'.deferredIPCIDRMatchGroups ||| deferred } else c'
  if invert then if !matched then (true, c') else (deferred != 0#8, c')
  else (matched, c')

/-- A default rule of a rule set; its only address items are IP ranges. -/
structure DefaultHeadless (α κ : Type) extends Default α κ where
  ipCIDROnly : ∀ i ∈ destinationIPCIDRItems, ∃ ipSet, i = .ipCIDR ipSet

inductive Headless (α κ : Type) where
  | default (rule : DefaultHeadless α κ)
  | logical (mode : LogicalMode) (rules : List (Headless α κ)) (invert : Bool)

theorem Headless.induct {P : Headless α κ → Prop} (hdefault : ∀ rule, P (.default rule))
    (hlogical : ∀ mode rules invert, (∀ r ∈ rules, P r) → P (.logical mode rules invert)) (r : Headless α κ) :
    P r :=
  @Headless.rec α κ P (fun rules => ∀ r ∈ rules, P r) hdefault hlogical nofun
    (fun _ _ hr hrules => List.forall_mem_cons.mpr ⟨hr, hrules⟩) r

mutual

def Headless.match (m : Metadata α κ) : Headless α κ → Run
  | .default rule => matchDefault rule.allItemsEmpty rule.invert (rule.matchInner m none)
  | .logical mode rules invert => matchLogical mode invert (Headless.matchList m rules)

def Headless.matchList (m : Metadata α κ) : List (Headless α κ) → List Run
  | [] => []
  | rule :: rules => rule.match m :: Headless.matchList m rules

end

theorem Headless.matchList_eq (m : Metadata α κ) (rules : List (Headless α κ)) :
    Headless.matchList m rules = rules.map (Headless.match m) := by
  induction rules with
  | nil => rfl
  | cons rule rules ih => rw [matchList, ih, List.map_cons]

def matchAnyHeadlessRule (m : Metadata α κ) (rules : List (Headless α κ)) : Run := fun c =>
  let (matched, deferred, c') :=
    matchSome Cache.resetRuleMatchCache (rules.map (Headless.match m)) false 0#8 c
  let c' := c.restore c'
  (matched,
    if matched then { c' with deferredIPCIDRMatchGroups := c'.deferredIPCIDRMatchGroups ||| deferred } else c')

/-- The rule of a set that is matched as a part of the rule that refers to the set. -/
def mergeableRuleIn : List (Headless α κ) → Option (DefaultHeadless α κ)
  | [.default rule] => if rule.invert then none else some rule
  | _ => none

/-- A reference to rule sets, by their rules. -/
structure RuleSetItem (α κ : Type) where
  setList : List (List (Headless α κ))
  ipCidrMatchSource : Bool
  ipCidrAcceptEmpty : Bool
  domainOnly : Bool

namespace RuleSetItem

variable (item : RuleSetItem α κ) (m : Metadata α κ)

def prepareNestedMatch (c : Cache) : Cache :=
  let c := { c.resetRuleMatchCache with
    ipCIDRMatchSource := item.ipCidrMatchSource
    ipCIDRAcceptEmpty := item.ipCidrAcceptEmpty }
  if item.domainOnly then
    { c with ruleSetDomainOnly := true, ignoreDestinationIPCIDRMatch := true, ruleSetDomainMatched := false }
  else c

def matchSets : List (List (Headless α κ)) → Run
  | [], c => (false, c)
  | rules :: sets, c =>
    let (matched, c) := matchAnyHeadlessRule m rules (item.prepareNestedMatch c)
    if matched && (!item.domainOnly || c.ruleSetDomainMatched) then (true, c) else matchSets sets c

def «match» : Run := fun c =>
  let (matched, c') := item.matchSets m item.setList c
  (matched, c.restore c')

/-- The loop of `matchWithOuterGroups` over the sets; `snapshot` is the cache before it. -/
def matchBranches (outer : GroupMatch) (snapshot : Cache) :
    List (List (Headless α κ)) → Bool → MatchState → Run
  | [], matched, deferred, c =>
    let c := snapshot.restore c
    (matched,
      if matched then { c with deferredIPCIDRMatchGroups := c.deferredIPCIDRMatchGroups ||| deferred } else c)
  | rules :: sets, matched, deferred, c =>
    let c := item.prepareNestedMatch c
    match mergeableRuleIn rules with
    | some branch =>
      match branch.evaluateForMerge m c with
      | (none, c) => matchBranches outer snapshot sets matched deferred c
      | (some branchGroups, c) =>
        let merged := outer.mergeWith branchGroups
        if merged.done then
          let branchDeferred := c.deferredIPCIDRMatchGroups &&& ~~~merged.satisfied
          if branchDeferred == 0#8 then
            let c := snapshot.restore c
            (true, { c with deferredIPCIDRMatchGroups := c.deferredIPCIDRMatchGroups &&& ~~~merged.satisfied })
          else matchBranches outer snapshot sets true (deferred ||| branchDeferred) c
        else matchBranches outer snapshot sets matched deferred c
    | none =>
      if outer.done then
        match matchAnyHeadlessRule m rules c with
        | (false, c) => matchBranches outer snapshot sets matched deferred c
        | (true, c) =>
          if c.deferredIPCIDRMatchGroups == 0#8 then (true, snapshot.restore c)
          else matchBranches outer snapshot sets true (deferred ||| c.deferredIPCIDRMatchGroups) c
      else matchBranches outer snapshot sets matched deferred c

def matchWithOuterGroups (outer : GroupMatch) : Run := fun c =>
  if item.domainOnly then if outer.done then item.match m c else (false, c)
  else item.matchBranches m outer c item.setList false 0#8 c

end RuleSetItem

/-- A rule of a route or of the DNS router. `matchResponse` is the tag of the
response the conditions of a DNS rule are about, empty for the untagged one. -/
inductive Rule (α κ : Type) where
  | default (rule : Default α κ) (ruleSet : Option (RuleSetItem α κ)) (matchResponse : Option String)
  | logical (mode : LogicalMode) (rules : List (Rule α κ)) (invert : Bool)

def Default.match (r : Default α κ) (ruleSet : Option (RuleSetItem α κ)) (m : Metadata α κ) : Run :=
  matchDefault (r.allItemsEmpty && ruleSet.isNone) r.invert
    (r.matchInner m (ruleSet.map fun item => item.matchWithOuterGroups m))

/-- The response a rule with `match_response` is about. -/
def Metadata.matchedResponse (m : Metadata α κ) (tag : String) : Option (List α) :=
  if tag = "" then m.dnsResponse else m.namedDNSResponses tag

/-- `DefaultDNSRule.matchForMatch`, which is `Match` for a rule without `match_response`. -/
def Default.matchForMatch (r : Default α κ) (ruleSet : Option (RuleSetItem α κ)) (matchResponse : Option String)
    (m : Metadata α κ) : Run :=
  match matchResponse with
  | none => r.match ruleSet m
  | some tag => fun c =>
    match m.matchedResponse tag with
    | none => (r.invert, c)
    | some response => ((r.match ruleSet (m.withResponse (some response)) c).1, c)

theorem Rule.induct {P : Rule α κ → Prop}
    (hdefault : ∀ rule ruleSet matchResponse, P (.default rule ruleSet matchResponse))
    (hlogical : ∀ mode rules invert, (∀ r ∈ rules, P r) → P (.logical mode rules invert)) (r : Rule α κ) : P r :=
  @Rule.rec α κ P (fun rules => ∀ r ∈ rules, P r) hdefault hlogical nofun
    (fun _ _ hr hrules => List.forall_mem_cons.mpr ⟨hr, hrules⟩) r

mutual

def Rule.match (m : Metadata α κ) : Rule α κ → Run
  | .default rule ruleSet matchResponse => rule.matchForMatch ruleSet matchResponse m
  | .logical mode rules invert => matchLogical mode invert (Rule.matchList m rules)

def Rule.matchList (m : Metadata α κ) : List (Rule α κ) → List Run
  | [] => []
  | rule :: rules => rule.match m :: Rule.matchList m rules

end

namespace Rule

theorem matchList_eq (m : Metadata α κ) (rules : List (Rule α κ)) :
    Rule.matchList m rules = rules.map (Rule.match m) := by
  induction rules with
  | nil => rfl
  | cons rule rules ih => rw [matchList, ih, List.map_cons]

/-- `Match` of the embedded `abstractDefaultRule` or `abstractLogicalRule`. -/
def abstractMatch (m : Metadata α κ) : Rule α κ → Run
  | .default rule ruleSet _ => rule.match ruleSet m
  | .logical mode rules invert => matchLogical mode invert (Rule.matchList m rules)

/-- `LegacyPreMatch`: the address items are left open. -/
def legacyPreMatch (m : Metadata α κ) (rule : Rule α κ) (c : Cache) : Bool × Cache :=
  match rule with
  | .default _ _ (some _) => (false, c)
  | rule =>
    let (matched, c) := rule.abstractMatch m { c with ignoreDestinationIPCIDRMatch := true }
    (matched, { c with ignoreDestinationIPCIDRMatch := false })

/-- `MatchAddressLimit`, on a copy of the context. -/
def matchAddressLimit (m : Metadata α κ) (rule : Rule α κ) (c : Cache) (response : Option (List α)) : Bool :=
  (rule.abstractMatch (m.withResponse response) c.resetRuleCache).1

/-- Rules matched one after another on one context, as `matchRule` and `matchDNS` do. -/
def matchEach (m : Metadata α κ) : List (Rule α κ) → Cache → List Bool
  | [], _ => []
  | rule :: rules, c =>
    let (matched, c) := rule.match m c.resetRuleCache
    matched :: matchEach m rules c

end Rule

/-! ## What a match leaves in the cache -/

section
open List Headless

theorem matchInner_cache (r : Default α κ) (m : Metadata α κ) (c : Cache) :
    (r.matchInner m none c).2.toFlags = c.toFlags ∧ (r.matchInner m none c).2.ruleSetDomainMatched =
      (c.ruleSetDomainMatched || Default.matchAnyItem m r.destinationAddressItems) := by
  rw [Default.matchInner, Default.evaluateGroups_eq]
  cases r.matchItems m with
  | false => exact ⟨rfl, rfl⟩
  | true =>
    simp only [Bool.not_true, Bool.false_eq_true, if_false]
    split <;> exact ⟨rfl, rfl⟩

variable {c : Cache} {inner : Run}

theorem matchDefault_flags (empty invert : Bool) (h : (inner c).2.toFlags = c.toFlags) :
    (matchDefault empty invert inner c).2.toFlags = c.toFlags := by
  unfold matchDefault
  rcases hres : inner c with ⟨matched, c'⟩
  rw [hres] at h
  cases empty <;> cases invert <;> cases matched <;> simp_all

theorem match_flags (m : Metadata α κ) (r : Headless α κ) (c : Cache) : (r.match m c).2.toFlags = c.toFlags := by
  cases r with
  | default rule =>
    rw [Headless.match]
    exact matchDefault_flags _ _ (matchInner_cache rule.toDefault m c).1
  | logical mode rules invert =>
    rw [Headless.match, matchLogical]
    generalize mode.loop (matchList m rules) c = result
    obtain ⟨matched, deferred, c'⟩ := result
    cases matched <;> cases invert <;> rfl

variable {β : Type} {run run' : β → Run} {l : List β} {P : Cache → Prop}

theorem matchEvery_cache (h : ∀ x ∈ l, ∀ c, P c → P (run x c.resetRuleCache).2) (deferred : MatchState) (hc : P c) :
    P (matchEvery (l.map run) deferred c).2.2 := by
  induction l generalizing deferred c with
  | nil => exact hc
  | cons x l ih =>
    have hx := h x mem_cons_self c hc
    rw [map_cons, matchEvery]
    rcases hres : run x c.resetRuleCache with ⟨matched, c'⟩
    rw [hres] at hx
    cases matched with
    | false => exact hx
    | true => exact ih (fun y hy => h y (mem_cons_of_mem x hy)) _ hx

theorem matchSome_cache {reset : Cache → Cache} (h : ∀ x ∈ l, ∀ c, P c → P (run x (reset c)).2) (matched : Bool)
    (deferred : MatchState) (hc : P c) : P (matchSome reset (l.map run) matched deferred c).2.2 := by
  induction l generalizing matched deferred c with
  | nil => exact hc
  | cons x l ih =>
    have hx := h x mem_cons_self c hc
    have ih' := fun matched deferred => ih (fun y hy => h y (mem_cons_of_mem x hy)) matched deferred hx
    rw [map_cons, matchSome]
    rcases hres : run x (reset c) with ⟨ok, c'⟩
    rw [hres] at hx ih'
    cases ok with
    | false => exact ih' _ _
    | true =>
      dsimp only
      split
      · exact hx
      · exact ih' _ _

theorem matchEvery_congr (hreset : ∀ c, P c → P c.resetRuleCache)
    (hrun : ∀ x ∈ l, ∀ c, P c → run x c = run' x c ∧ P (run x c).2) (deferred : MatchState) (hc : P c) :
    matchEvery (l.map run) deferred c = matchEvery (l.map run') deferred c := by
  induction l generalizing deferred c with
  | nil => rfl
  | cons x l ih =>
    obtain ⟨heq, hnext⟩ := hrun x mem_cons_self _ (hreset c hc)
    simp only [map_cons, matchEvery, ← heq]
    rcases hres : run x c.resetRuleCache with ⟨matched, c'⟩
    rw [hres] at hnext
    cases matched with
    | false => rfl
    | true => exact ih (fun y hy => hrun y (mem_cons_of_mem x hy)) _ hnext

theorem matchSome_congr {reset : Cache → Cache} (hreset : ∀ c, P c → P (reset c))
    (hrun : ∀ x ∈ l, ∀ c, P c → run x c = run' x c ∧ P (run x c).2) (matched : Bool) (deferred : MatchState)
    (hc : P c) :
    matchSome reset (l.map run) matched deferred c = matchSome reset (l.map run') matched deferred c := by
  induction l generalizing matched deferred c with
  | nil => rfl
  | cons x l ih =>
    obtain ⟨heq, hnext⟩ := hrun x mem_cons_self _ (hreset c hc)
    have ih' := fun matched deferred => ih (fun y hy => hrun y (mem_cons_of_mem x hy)) matched deferred hnext
    simp only [map_cons, matchSome, ← heq]
    rcases hres : run x (reset c) with ⟨ok, c'⟩
    rw [hres] at ih'
    cases ok with
    | false => exact ih' _ _
    | true =>
      dsimp only
      rw [ih']

end

/-! ## Rules that do not tell two connections apart -/

section
variable {m m' : Metadata α κ} {P : Flags → Prop} {R : Headless α κ → Prop}
  (hreset : ∀ c : Cache, P c.toFlags → P c.resetRuleCache.toFlags)
  (hlogical : ∀ mode rules invert, R (.logical mode rules invert) → ∀ r ∈ rules, R r)
  (hdefault : ∀ rule, R (.default rule) → ∀ c : Cache, P c.toFlags →
    (Headless.default rule).match m c = (Headless.default rule).match m' c)
include hreset hlogical hdefault

/-- Where the default rules do not, no rule does. -/
theorem Headless.match_congr (r : Headless α κ) (hr : R r) (c : Cache) (hc : P c.toFlags) :
    r.match m c = r.match m' c := by
  induction r using induct generalizing c with
  | hdefault rule => exact hdefault rule hr c hc
  | hlogical mode rules invert ih =>
    have hrun : ∀ r ∈ rules, ∀ c : Cache, P c.toFlags → r.match m c = r.match m' c ∧ P (r.match m c).2.toFlags :=
      fun r hmem c hc => ⟨ih r hmem (hlogical mode rules invert hr r hmem) c hc, by rw [match_flags]; exact hc⟩
    have hloop : mode.loop (matchList m rules) c = mode.loop (matchList m' rules) c := by
      rw [matchList_eq, matchList_eq]
      cases mode with
      | and => exact matchEvery_congr hreset hrun _ hc
      | or => exact matchSome_congr hreset hrun _ _ hc
    simp only [Headless.match, matchLogical, hloop]

theorem RuleSetItem.matchSets_congr (item : RuleSetItem α κ) (hprepare : ∀ c, P (item.prepareNestedMatch c).toFlags)
    {sets : List (List (Headless α κ))} (hsets : ∀ rules ∈ sets, ∀ r ∈ rules, R r) (c : Cache) :
    item.matchSets m sets c = item.matchSets m' sets c := by
  induction sets generalizing c with
  | nil => rfl
  | cons rules sets ih =>
    obtain ⟨hrules, hsets⟩ := List.forall_mem_cons.mp hsets
    have hrun : ∀ r ∈ rules, ∀ c : Cache, P c.toFlags → r.match m c = r.match m' c ∧ P (r.match m c).2.toFlags :=
      fun r hr c hc => ⟨r.match_congr hreset hlogical hdefault (hrules r hr) c hc, by rw [match_flags]; exact hc⟩
    have hkeeps : ∀ c : Cache, P c.toFlags → P c.resetRuleMatchCache.toFlags := fun _ hc => hc
    have hany : matchAnyHeadlessRule m rules (item.prepareNestedMatch c) =
        matchAnyHeadlessRule m' rules (item.prepareNestedMatch c) := by
      rw [matchAnyHeadlessRule, matchAnyHeadlessRule, matchSome_congr hkeeps hrun _ _ (hprepare c)]
    simp only [matchSets, hany, ih hsets]

end
end SingBox.Rules
