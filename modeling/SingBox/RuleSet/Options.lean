import SingBox.Lib.Strings
import SingBox.NetIP.Prefix
import SingBox.Rules.Match

/-!
# The rules of a rule set

The options of a rule as a file holds them, and the rule that is built from them. Matchers,
regular expressions and sets of addresses come from libraries, and are given here by what they do.
-/
namespace SingBox.RuleSet

open Lib.Strings NetIP List
open Rules (LogicalMode)

abbrev InterfaceType := UInt8

structure IPRange where
  first : Addr
  last : Addr
  deriving DecidableEq

abbrev IPSet := List IPRange

/-- `option.DefaultHeadlessRule`, with `μ` for the matchers of domains and `δ` for those of AdGuard patterns. -/
structure DefaultHeadlessRule (μ δ : Type) where
  queryType : List UInt16 := []
  network : List Bytes := []
  domain : List Bytes := []
  domainSuffix : List Bytes := []
  domainKeyword : List Bytes := []
  domainRegex : List Bytes := []
  sourceIPCIDR : List Bytes := []
  ipCIDR : List Bytes := []
  sourcePort : List UInt16 := []
  sourcePortRange : List Bytes := []
  port : List UInt16 := []
  portRange : List Bytes := []
  processName : List Bytes := []
  processPath : List Bytes := []
  processPathRegex : List Bytes := []
  packageName : List Bytes := []
  packageNameRegex : List Bytes := []
  networkType : List InterfaceType := []
  networkIsExpensive : Bool := false
  networkIsConstrained : Bool := false
  wifiSSID : List Bytes := []
  wifiBSSID : List Bytes := []
  networkInterfaceAddress : List (InterfaceType × List Prefix) := []
  defaultInterfaceAddress : List Prefix := []
  invert : Bool := false
  domainMatcher : Option μ := none
  sourceIPSet : Option IPSet := none
  ipSet : Option IPSet := none
  adGuardDomain : List Bytes := []
  adGuardDomainMatcher : Option δ := none

inductive HeadlessRule (μ δ : Type) where
  | default (options : DefaultHeadlessRule μ δ)
  | logical (mode : LogicalMode) (rules : List (HeadlessRule μ δ)) (invert : Bool)

variable {μ δ ρ : Type}

theorem HeadlessRule.induct {P : HeadlessRule μ δ → Prop} (hdefault : ∀ options, P (.default options))
    (hlogical : ∀ mode rules invert, (∀ r ∈ rules, P r) → P (.logical mode rules invert)) (r : HeadlessRule μ δ) :
    P r :=
  @HeadlessRule.rec μ δ P (fun rules => ∀ r ∈ rules, P r) hdefault hlogical nofun
    (fun _ _ hr hrules => forall_mem_cons.mpr ⟨hr, hrules⟩) r

/-- The rule asks for something. -/
def DefaultHeadlessRule.isValid (o : DefaultHeadlessRule μ δ) : Bool :=
  !(o.queryType.isEmpty && o.network.isEmpty && o.domain.isEmpty && o.domainSuffix.isEmpty &&
    o.domainKeyword.isEmpty && o.domainRegex.isEmpty && o.sourceIPCIDR.isEmpty && o.ipCIDR.isEmpty &&
    o.sourcePort.isEmpty && o.sourcePortRange.isEmpty && o.port.isEmpty && o.portRange.isEmpty &&
    o.processName.isEmpty && o.processPath.isEmpty && o.processPathRegex.isEmpty && o.packageName.isEmpty &&
    o.packageNameRegex.isEmpty && o.networkType.isEmpty && !o.networkIsExpensive && !o.networkIsConstrained &&
    o.wifiSSID.isEmpty && o.wifiBSSID.isEmpty && o.networkInterfaceAddress.isEmpty &&
    o.defaultInterfaceAddress.isEmpty && o.domainMatcher.isNone && o.sourceIPSet.isNone && o.ipSet.isNone &&
    o.adGuardDomain.isEmpty && o.adGuardDomainMatcher.isNone)

mutual

def HeadlessRule.isValid : HeadlessRule μ δ → Bool
  | .default options => options.isValid
  | .logical _ rules _ => !rules.isEmpty && HeadlessRule.areValid rules

def HeadlessRule.areValid : List (HeadlessRule μ δ) → Bool
  | [] => true
  | rule :: rules => rule.isValid && HeadlessRule.areValid rules

end

/-- What the items read of `adapter.InboundContext` apart from addresses and ports. -/
structure Context (ρ : Type) where
  domain : Bytes
  fqdn : Bytes
  network : Bytes
  queryType : UInt16
  rest : ρ

structure Ports (ρ : Type) where
  sourcePort : UInt16
  destinationPort : UInt16
  context : Context ρ

/-- The items that ask the network manager. -/
structure NetworkManager (ρ : Type) where
  networkType : List InterfaceType → ρ → Bool
  isExpensive : ρ → Bool
  isConstrained : ρ → Bool
  wifiSSID : List Bytes → ρ → Bool
  wifiBSSID : List Bytes → ρ → Bool
  networkInterfaceAddress : List (InterfaceType × List Prefix) → ρ → Bool
  defaultInterfaceAddress : List Prefix → ρ → Bool

/-- What the rules take from elsewhere. -/
structure Library (μ δ ρ : Type) where
  toLower : Bytes → Bytes
  newMatcher : List Bytes → List Bytes → Bool → μ
  matcherMatch : μ → Bytes → Bool
  newAdGuardMatcher : List Bytes → δ
  adGuardMatch : δ → Bytes → Bool
  compileRegexp : Bytes → Except String (Bytes → Bool)
  buildIPSet : List Bytes → Except String IPSet
  contains : IPSet → Addr → Bool
  parsePortRange : Bytes → Except String (UInt16 × UInt16)
  processName : List Bytes → ρ → Bool
  processPath : List Bytes → ρ → Bool
  processPathRegex : (Bytes → Bool) → ρ → Bool
  packageName : List Bytes → ρ → Bool
  packageNameRegex : (Bytes → Bool) → ρ → Bool
  networkManager : Option (NetworkManager ρ)

/-! ## The items -/

/-- `Match` of the items about a domain. -/
def matchDomain (lib : Library μ δ ρ) (matcher : Bytes → Bool) (c : Context ρ) : Bool :=
  let domainHost := if c.domain ≠ [] then c.domain else c.fqdn
  domainHost ≠ [] && matcher (lib.toLower domainHost)

def newDomainItem (lib : Library μ δ ρ) (domains domainSuffixes : List Bytes) : Except String (Bytes → Bool) :=
  if domains.contains [] then .error "domain: empty item is not allowed"
  else if domainSuffixes.contains [] then .error "domain_suffix: empty item is not allowed"
  else .ok (lib.matcherMatch (lib.newMatcher domains domainSuffixes false))

def domainKeyword (keywords : List Bytes) (domainHost : Bytes) : Bool :=
  keywords.any fun keyword => domainHost.tails.any fun tail => keyword.isPrefixOf tail

/-- The expressions of an item; the first that is none is named by its place. -/
def compileRegexps (lib : Library μ δ ρ) : List Bytes → Nat → Except String (List (Bytes → Bool))
  | [], _ => .ok []
  | expression :: expressions, i =>
    match lib.compileRegexp expression with
    | .error err => .error s!"parse expression {i}: {err}"
    | .ok matcher => (compileRegexps lib expressions (i + 1)).map (matcher :: ·)

def newRegexItem (lib : Library μ δ ρ) (expressions : List Bytes) : Except String (List (Bytes → Bool)) :=
  compileRegexps lib expressions 0

def portRanges (lib : Library μ δ ρ) : List Bytes → Except String (List (UInt16 × UInt16))
  | [] => .ok []
  | range :: ranges => do
    let r ← lib.parsePortRange range
    let rs ← portRanges lib ranges
    return r :: rs

def newPortRangeItem (lib : Library μ δ ρ) (ranges : List Bytes) : Except String (UInt16 → Bool) :=
  (portRanges lib ranges).map fun ranges port => ranges.any fun r => r.1 ≤ port && port ≤ r.2

def matchQueryType (types : List UInt16) (c : Context ρ) : Bool := c.queryType ≠ 0 && types.contains c.queryType

/-- An item that is there if its option is. -/
def item? {β γ : Type} (option : List β) (make : List β → γ) : List γ := if option.isEmpty then [] else [make option]

/-- The same for an item that may be refused; `what` stands before the error. -/
def tryItem? {β γ : Type} (what : String) (option : List β) (make : List β → Except String γ) :
    Except String (List γ) :=
  if option.isEmpty then .ok []
  else
    match make option with
    | .error err => .error (what ++ err)
    | .ok item => .ok [item]

/-! ## The rule -/

/-- The items of a default rule, by what they read. -/
structure Items (ρ : Type) where
  items : List (Context ρ → Bool)
  domainItems : List (Context ρ → Bool)
  sourceIPSets : List (Addr → Bool)
  ipSets : List (Addr → Bool)
  sourcePorts : List (UInt16 → Bool)
  ports : List (UInt16 → Bool)

def Items.rule (i : Items ρ) (invert : Bool) : Rules.DefaultHeadless Addr (Ports ρ) where
  items := i.items.map fun item c => item c.other.context
  sourceAddressItems := i.sourceIPSets.map fun ipSet c => ipSet c.source
  sourcePortItems := i.sourcePorts.map fun port c => port c.other.sourcePort
  destinationAddressItems := i.domainItems.map fun item c => item c.other.context
  destinationIPCIDRItems := i.ipSets.map .ipCIDR
  destinationPortItems := i.ports.map fun port c => port c.other.destinationPort
  invert := invert
  ipCIDROnly := fun _ h => (mem_map.mp h).imp fun _ h => h.2.symm

variable (lib : Library μ δ ρ)

def networkItems (manager : NetworkManager ρ) (o : DefaultHeadlessRule μ δ) : List (ρ → Bool) :=
  item? o.networkType manager.networkType ++ (if o.networkIsExpensive then [manager.isExpensive] else []) ++
    (if o.networkIsConstrained then [manager.isConstrained] else []) ++ item? o.wifiSSID manager.wifiSSID ++
    item? o.wifiBSSID manager.wifiBSSID ++ item? o.networkInterfaceAddress manager.networkInterfaceAddress ++
    item? o.defaultInterfaceAddress manager.defaultInterfaceAddress

/-- A set given by its texts, or as it was read. -/
def newIPCIDRItem (what : String) (texts : List Bytes) (ipSet : Option IPSet) : Except String (List (Addr → Bool)) :=
  if texts.isEmpty then .ok (ipSet.toList.map lib.contains)
  else tryItem? what texts fun texts => (lib.buildIPSet texts).map lib.contains

def newItems (o : DefaultHeadlessRule μ δ) : Except String (Items ρ) := do
  let domain ←
    if !o.domain.isEmpty || !o.domainSuffix.isEmpty then (newDomainItem lib o.domain o.domainSuffix).map ([·])
    else .ok (o.domainMatcher.toList.map lib.matcherMatch)
  let domainRegex ← tryItem? "domain_regex: " o.domainRegex (newRegexItem lib)
  let sourceIPSets ← newIPCIDRItem lib "source_ip_cidr: " o.sourceIPCIDR o.sourceIPSet
  let ipSets ← newIPCIDRItem lib "ipcidr: " o.ipCIDR o.ipSet
  let sourcePortRange ← tryItem? "source_port_range: " o.sourcePortRange (newPortRangeItem lib)
  let portRange ← tryItem? "port_range: " o.portRange (newPortRangeItem lib)
  let processPathRegex ← tryItem? "process_path_regex: " o.processPathRegex (newRegexItem lib)
  let packageNameRegex ← tryItem? "package_name_regex: " o.packageNameRegex (newRegexItem lib)
  let adGuard :=
    if o.adGuardDomain.isEmpty then o.adGuardDomainMatcher.toList else [lib.newAdGuardMatcher o.adGuardDomain]
  let ofRest := item? o.processName lib.processName ++ item? o.processPath lib.processPath ++
    processPathRegex.map (fun matchers rest => matchers.any fun m => lib.processPathRegex m rest) ++
    item? o.packageName lib.packageName ++
    packageNameRegex.map (fun matchers rest => matchers.any fun m => lib.packageNameRegex m rest) ++
    lib.networkManager.toList.flatMap (networkItems · o)
  return {
    items := item? o.queryType matchQueryType ++ item? o.network (fun networks c => networks.contains c.network) ++
      ofRest.map fun item c => item c.rest
    domainItems := (domain ++ item? o.domainKeyword domainKeyword ++
      domainRegex.map (fun matchers host => matchers.any fun m => m host) ++ adGuard.map lib.adGuardMatch).map
        (matchDomain lib)
    sourceIPSets
    ipSets
    sourcePorts := item? o.sourcePort (fun ports => ports.contains) ++ sourcePortRange
    ports := item? o.port (fun ports => ports.contains) ++ portRange }

def newDefaultHeadlessRule (o : DefaultHeadlessRule μ δ) : Except String (Rules.DefaultHeadless Addr (Ports ρ)) := do
  return (← newItems lib o).rule o.invert

/-- All results from the `i`th on, or the first error with its place. -/
def collect {β : Type} (what : String) : List (Except String β) → Nat → Except String (List β)
  | [], _ => .ok []
  | .error err :: _, i => .error s!"{what}[{i}]: {err}"
  | .ok result :: results, i => (collect what results (i + 1)).map (result :: ·)

mutual

def newHeadlessRule : HeadlessRule μ δ → Except String (Rules.Headless Addr (Ports ρ))
  | .default options =>
    if options.isValid then (newDefaultHeadlessRule lib options).map .default else .error "missing conditions"
  | .logical mode rules invert =>
    if !rules.isEmpty && HeadlessRule.areValid rules then
      (collect "sub rule" (newHeadlessRules rules) 0).map fun rules => .logical mode rules invert
    else .error "missing conditions"

def newHeadlessRules : List (HeadlessRule μ δ) → List (Except String (Rules.Headless Addr (Ports ρ)))
  | [] => []
  | rule :: rules => newHeadlessRule rule :: newHeadlessRules rules

end

theorem newHeadlessRules_eq (rules : List (HeadlessRule μ δ)) :
    newHeadlessRules lib rules = rules.map (newHeadlessRule lib) := by
  induction rules with
  | nil => rfl
  | cons rule rules ih => rw [newHeadlessRules, ih, map_cons]

/-- The rules of a set, as `LocalRuleSet.reloadRules` builds them. -/
def newRules (rules : List (HeadlessRule μ δ)) : Except String (List (Rules.Headless Addr (Ports ρ))) :=
  collect "parse rule_set.rules." (newHeadlessRules lib rules) 0

/-- Every default rule of it comes from items that read what is theirs. -/
inductive Built : Rules.Headless Addr (Ports ρ) → Prop
  | default (i : Items ρ) (invert : Bool) : Built (.default (i.rule invert))
  | logical {mode : LogicalMode} {rules : List (Rules.Headless Addr (Ports ρ))} {invert : Bool}
    (h : ∀ r ∈ rules, Built r) : Built (.logical mode rules invert)

variable {β : Type} {what : String} {i : Nat} {options : List (HeadlessRule μ δ)}
  {rules : List (Rules.Headless Addr (Ports ρ))}

theorem map_eq_ok {γ : Type} {f : β → γ} {x : Except String β} {y : γ} (h : x.map f = .ok y) :
    ∃ z, x = .ok z ∧ f z = y := by
  cases x with
  | error err => cases h
  | ok z => exact ⟨z, rfl, Except.ok.inj h⟩

theorem collect_eq_ok {results : List (Except String β)} {l : List β} (h : collect what results i = .ok l) :
    results = l.map .ok := by
  induction results generalizing i l with
  | nil =>
    cases h
    rfl
  | cons result results ih =>
    cases result with
    | error err => cases h
    | ok x =>
      obtain ⟨rest, hrest, rfl⟩ := map_eq_ok h
      rw [ih hrest, map_cons]

theorem newDefaultHeadlessRule_built {o : DefaultHeadlessRule μ δ} {r : Rules.DefaultHeadless Addr (Ports ρ)}
    (h : newDefaultHeadlessRule lib o = .ok r) : Built (.default r) := by
  unfold newDefaultHeadlessRule at h
  cases hi : newItems lib o with
  | error err =>
    rw [hi] at h
    cases h
  | ok i =>
    rw [hi] at h
    cases h
    exact .default i o.invert

theorem built_of_collect (ho : ∀ o ∈ options, ∀ r, newHeadlessRule lib o = .ok r → Built r)
    (h : collect what (newHeadlessRules lib options) i = .ok rules) : ∀ r ∈ rules, Built r := by
  have hrules := collect_eq_ok h
  rw [newHeadlessRules_eq] at hrules
  intro r hr
  have hmem : Except.ok r ∈ options.map (newHeadlessRule lib) := by
    rw [hrules]
    exact mem_map_of_mem hr
  obtain ⟨o, hmem, heq⟩ := mem_map.mp hmem
  exact ho o hmem r heq

theorem newHeadlessRule_built (o : HeadlessRule μ δ) {r : Rules.Headless Addr (Ports ρ)}
    (h : newHeadlessRule lib o = .ok r) : Built r := by
  induction o using HeadlessRule.induct generalizing r with
  | hdefault options =>
    rw [newHeadlessRule] at h
    split at h
    · obtain ⟨rule, hrule, rfl⟩ := map_eq_ok h
      exact newDefaultHeadlessRule_built lib hrule
    · cases h
  | hlogical mode rules invert ih =>
    rw [newHeadlessRule] at h
    split at h
    · obtain ⟨subRules, hsub, rfl⟩ := map_eq_ok h
      exact .logical (built_of_collect lib (fun o ho r hr => ih o ho hr) hsub)
    · cases h

theorem newRules_built (h : newRules lib options = .ok rules) : ∀ r ∈ rules, Built r :=
  built_of_collect lib (fun o _ _ hr => newHeadlessRule_built lib o hr) h

end SingBox.RuleSet
