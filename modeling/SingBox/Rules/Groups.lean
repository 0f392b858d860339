import Mathlib.Data.List.Basic

/-!
# Items and groups of a default rule

The items of a rule fall into plain ones, all of which must match, and groups,
of each of which one must match. `abstractDefaultRule.evaluateGroups` keeps the
groups in two bit masks; here it is shown what the masks say about the items.
-/
namespace SingBox.Rules

/-- What the items read of `adapter.InboundContext` apart from a DNS response;
`other` is everything no address item reads. -/
structure Connection (α κ : Type) where
  source : α
  destination : Option α
  destinationAddresses : List α
  other : κ

/-- The fields no rule assigns. A DNS response is the list of its addresses. -/
structure Metadata (α κ : Type) where
  connection : Connection α κ
  dnsResponse : Option (List α)
  namedDNSResponses : String → Option (List α)
  destinationAddressMatchFromResponse : Bool

def Metadata.responseAddresses {α κ : Type} (m : Metadata α κ) : List α := m.dnsResponse.getD []

/-- The copy of the context a rule about a response is matched on. -/
def Metadata.withResponse {α κ : Type} (m : Metadata α κ) (response : Option (List α)) : Metadata α κ :=
  { m with dnsResponse := response, destinationAddressMatchFromResponse := true }

/-- The switches of the rule cache. -/
structure Flags where
  ipCIDRMatchSource : Bool
  ipCIDRAcceptEmpty : Bool
  ignoreDestinationIPCIDRMatch : Bool
  ruleSetDomainOnly : Bool
  deriving DecidableEq

/-- `ruleMatchState`, a set of groups. -/
abbrev MatchState := BitVec 8

def sourceAddress : MatchState := 1#8
def sourcePort : MatchState := 2#8
def destinationAddress : MatchState := 4#8
def destinationPort : MatchState := 8#8

/-- The fields of the context that matching assigns. -/
structure Cache extends Flags where
  deferredIPCIDRMatchGroups : MatchState
  ruleSetDomainMatched : Bool
  deriving DecidableEq

namespace Cache

def resetRuleMatchCache (c : Cache) : Cache := { c with deferredIPCIDRMatchGroups := 0#8 }

def resetRuleCache (c : Cache) : Cache :=
  { c with ipCIDRMatchSource := false, ipCIDRAcceptEmpty := false, deferredIPCIDRMatchGroups := 0#8 }

/-- `ruleMatchSnapshot.restore`: all but the note that a domain matched. -/
def restore (snapshot c : Cache) : Cache := { snapshot with ruleSetDomainMatched := c.ruleSetDomainMatched }

end Cache

variable {α κ : Type}

/-- The items that look at the destination address: `IPCIDRItem`, `IPIsPrivateItem` and
`IPAcceptAnyItem`. -/
inductive AddressItem (α : Type) where
  | ipCIDR (ipSet : α → Bool)
  | ipIsPrivate (isPublicAddr : α → Bool)
  | ipAcceptAny

def AddressItem.match (m : Metadata α κ) (f : Flags) : AddressItem α → Bool
  | .ipCIDR ipSet =>
    if f.ipCIDRMatchSource then ipSet m.connection.source
    else if m.destinationAddressMatchFromResponse then
      if m.responseAddresses.isEmpty then f.ipCIDRAcceptEmpty else m.responseAddresses.any ipSet
    else
      match m.connection.destination with
      | some a => ipSet a
      | none =>
        if m.connection.destinationAddresses.isEmpty then f.ipCIDRAcceptEmpty
        else m.connection.destinationAddresses.any ipSet
  | .ipIsPrivate isPublicAddr =>
    if m.destinationAddressMatchFromResponse then m.responseAddresses.any fun a => !isPublicAddr a
    else
      match m.connection.destination with
      | some a => !isPublicAddr a
      | none => m.connection.destinationAddresses.any fun a => !isPublicAddr a
  | .ipAcceptAny =>
    if m.destinationAddressMatchFromResponse then !m.responseAddresses.isEmpty
    else !m.connection.destinationAddresses.isEmpty

/-- `ruleGroupMatch`. -/
structure GroupMatch where
  required : MatchState
  satisfied : MatchState
  deriving DecidableEq

namespace GroupMatch

def done (g : GroupMatch) : Bool := g.required &&& ~~~g.satisfied == 0#8

def mergeWith (g other : GroupMatch) : GroupMatch :=
  ⟨g.required ||| other.required, g.satisfied ||| other.satisfied⟩

def require (g : GroupMatch) (group : MatchState) (matched : Bool) : GroupMatch :=
  ⟨g.required ||| group, if matched then g.satisfied ||| group else g.satisfied⟩

end GroupMatch

def MatchState.has (s target : MatchState) : Bool := s &&& target != 0#8

/-- `abstractDefaultRule`, without the reference to rule sets. -/
structure Default (α κ : Type) where
  items : List (Connection α κ → Bool)
  sourceAddressItems : List (Connection α κ → Bool)
  sourcePortItems : List (Connection α κ → Bool)
  destinationAddressItems : List (Connection α κ → Bool)
  destinationIPCIDRItems : List (AddressItem α)
  destinationPortItems : List (Connection α κ → Bool)
  invert : Bool

namespace Default

def matchAnyItem (m : Metadata α κ) (items : List (Connection α κ → Bool)) : Bool :=
  items.any fun item => item m.connection

variable (r : Default α κ) (m : Metadata α κ)

def matchAnyAddressItem (f : Flags) : Bool := r.destinationIPCIDRItems.any (AddressItem.match m f)

/-- The rule has no item; `allItems` collects those of every list. -/
def allItemsEmpty : Bool :=
  r.items.isEmpty && r.sourceAddressItems.isEmpty && r.sourcePortItems.isEmpty &&
    r.destinationAddressItems.isEmpty && r.destinationIPCIDRItems.isEmpty && r.destinationPortItems.isEmpty

def destinationIPCIDRMatchesSource (f : Flags) : Bool :=
  f.ipCIDRMatchSource && !r.destinationIPCIDRItems.isEmpty

def destinationIPCIDRMatchesDestination (f : Flags) : Bool :=
  !f.ignoreDestinationIPCIDRMatch && !f.ipCIDRMatchSource && !r.destinationIPCIDRItems.isEmpty

/-- The address items are left open until there is a response. -/
def defers (f : Flags) : Bool :=
  f.ignoreDestinationIPCIDRMatch && !f.ipCIDRMatchSource && !r.destinationIPCIDRItems.isEmpty &&
    r.destinationAddressItems.isEmpty

def evaluateGroups (c : Cache) : GroupMatch × Cache :=
  let groups : GroupMatch := ⟨0#8, 0#8⟩
  let groups :=
    if !r.sourceAddressItems.isEmpty then groups.require sourceAddress (matchAnyItem m r.sourceAddressItems)
    else groups
  let groups :=
    if r.destinationIPCIDRMatchesSource c.toFlags then
      groups.require sourceAddress
        (!MatchState.has groups.satisfied sourceAddress && r.matchAnyAddressItem m c.toFlags)
    else groups
  let groups :=
    if !c.ruleSetDomainOnly && !r.sourcePortItems.isEmpty then
      groups.require sourcePort (matchAnyItem m r.sourcePortItems)
    else groups
  let domainMatched := !r.destinationAddressItems.isEmpty && matchAnyItem m r.destinationAddressItems
  let groups :=
    if !r.destinationAddressItems.isEmpty then
      groups.require destinationAddress (matchAnyItem m r.destinationAddressItems)
    else groups
  let groups :=
    if r.destinationIPCIDRMatchesDestination c.toFlags then
      groups.require destinationAddress
        (!MatchState.has groups.satisfied destinationAddress && r.matchAnyAddressItem m c.toFlags)
    else groups
  let groups :=
    if !c.ruleSetDomainOnly && !r.destinationPortItems.isEmpty then
      groups.require destinationPort (matchAnyItem m r.destinationPortItems)
    else groups
  (groups,
    { c with
      ruleSetDomainMatched := if domainMatched then true else c.ruleSetDomainMatched
      deferredIPCIDRMatchGroups :=
        if r.defers c.toFlags then c.deferredIPCIDRMatchGroups ||| destinationAddress
        else c.deferredIPCIDRMatchGroups })

end Default

/-- The results of the items of the four groups. -/
structure Groups where
  sourceAddress : List Bool
  sourcePort : List Bool
  destinationAddress : List Bool
  destinationPort : List Bool

/-- A group without an item asks for nothing. -/
def fulfilled (results : List Bool) : Bool := results.isEmpty || results.any id

namespace Groups

def hold (g : Groups) : Bool :=
  fulfilled g.sourceAddress && fulfilled g.sourcePort && fulfilled g.destinationAddress &&
    fulfilled g.destinationPort

/-- The groups of two rules that are matched as one. -/
def merge (g h : Groups) : Groups :=
  ⟨g.sourceAddress ++ h.sourceAddress, g.sourcePort ++ h.sourcePort,
    g.destinationAddress ++ h.destinationAddress, g.destinationPort ++ h.destinationPort⟩

end Groups

/-- The items that are asked for under the switches `f`, by group. -/
def Default.groups (r : Default α κ) (m : Metadata α κ) (f : Flags) : Groups where
  sourceAddress := r.sourceAddressItems.map (fun item => item m.connection) ++
    if f.ipCIDRMatchSource then r.destinationIPCIDRItems.map (AddressItem.match m f) else []
  sourcePort := if f.ruleSetDomainOnly then [] else r.sourcePortItems.map fun item => item m.connection
  destinationAddress := r.destinationAddressItems.map (fun item => item m.connection) ++
    if f.ignoreDestinationIPCIDRMatch || f.ipCIDRMatchSource then []
    else r.destinationIPCIDRItems.map (AddressItem.match m f)
  destinationPort := if f.ruleSetDomainOnly then [] else r.destinationPortItems.map fun item => item m.connection

/-- A mask with one bit for each group. -/
def mask (a b c d : Bool) : MatchState :=
  (if a then sourceAddress else 0#8) ||| (if b then sourcePort else 0#8) |||
    (if c then destinationAddress else 0#8) ||| if d then destinationPort else 0#8

theorem mask_or (a b c d a' b' c' d' : Bool) :
    mask a b c d ||| mask a' b' c' d' = mask (a || a') (b || b') (c || c') (d || d') := by
  revert a b c d a' b' c' d'
  decide

theorem mask_done (a b c d a' b' c' d' : Bool) :
    (mask a b c d &&& ~~~mask a' b' c' d' == 0#8) = ((!a || a') && (!b || b') && (!c || c') && (!d || d')) := by
  revert a b c d a' b' c' d'
  decide

/-- The mask of the groups that ask for something, and of those that got it. -/
def Groups.toMatch (g : Groups) : GroupMatch where
  required := mask (!g.sourceAddress.isEmpty) (!g.sourcePort.isEmpty) (!g.destinationAddress.isEmpty)
    (!g.destinationPort.isEmpty)
  satisfied := mask (g.sourceAddress.any id) (g.sourcePort.any id) (g.destinationAddress.any id)
    (g.destinationPort.any id)

theorem Groups.toMatch_done (g : Groups) : g.toMatch.done = g.hold := by
  rw [GroupMatch.done, toMatch, mask_done, hold]
  simp only [fulfilled, Bool.not_not]

theorem isEmpty_append {β : Type} (l l' : List β) : (l ++ l').isEmpty = (l.isEmpty && l'.isEmpty) := by
  cases l <;> simp

theorem Groups.toMatch_merge (g h : Groups) : g.toMatch.mergeWith h.toMatch = (g.merge h).toMatch := by
  simp only [GroupMatch.mergeWith, toMatch, merge, mask_or, List.any_append, isEmpty_append, Bool.not_and]

theorem require_if (on x : Bool) (required satisfied group : MatchState) :
    (if on = true then GroupMatch.require ⟨required, satisfied⟩ group x else ⟨required, satisfied⟩) =
      ⟨required ||| if on then group else 0#8, satisfied ||| if on && x then group else 0#8⟩ := by
  cases on <;> cases x <;> simp [GroupMatch.require]

theorem if_mask (on : Bool) :
    (if on then sourceAddress else 0#8) = mask on false false false ∧
      (if on then sourcePort else 0#8) = mask false on false false ∧
    (if on then destinationAddress else 0#8) = mask false false on false ∧
    (if on then destinationPort else 0#8) = mask false false false on := by
  revert on
  decide

theorem mask_has (a b c d : Bool) :
    MatchState.has (mask a b c d) sourceAddress = a ∧ MatchState.has (mask a b c d) destinationAddress = c := by
  revert a b c d
  decide

/-- The masks say which groups have an item and which of them one that matches. -/
theorem Default.evaluateGroups_eq (r : Default α κ) (m : Metadata α κ) (c : Cache) :
    r.evaluateGroups m c =
      ((r.groups m c.toFlags).toMatch,
        { c with
          ruleSetDomainMatched := c.ruleSetDomainMatched || matchAnyItem m r.destinationAddressItems
          deferredIPCIDRMatchGroups :=
            if r.defers c.toFlags then c.deferredIPCIDRMatchGroups ||| destinationAddress
            else c.deferredIPCIDRMatchGroups }) := by
  have hany : ∀ (l : List (Connection α κ → Bool)),
      (l.map fun item => item m.connection).any id = matchAnyItem m l := by
    intro l
    simp [matchAnyItem, List.any_map]
  have hsome : ∀ (l : List (Connection α κ → Bool)), (!l.isEmpty && matchAnyItem m l) = matchAnyItem m l := by
    intro l
    cases l <;> simp [matchAnyItem]
  have haddr : (r.destinationIPCIDRItems.map (AddressItem.match m c.toFlags)).any id =
      r.matchAnyAddressItem m c.toFlags := by
    simp [matchAnyAddressItem, List.any_map]
  have hsomeaddr : (!r.destinationIPCIDRItems.isEmpty && r.matchAnyAddressItem m c.toFlags) =
      r.matchAnyAddressItem m c.toFlags := by
    unfold matchAnyAddressItem
    cases r.destinationIPCIDRItems <;> simp
  have hzero : (⟨0#8, 0#8⟩ : GroupMatch) =
      ⟨mask false false false false, mask false false false false⟩ := by decide
  refine Prod.ext ?_ ?_
  · simp only [evaluateGroups, hzero, require_if, (if_mask _).1, (if_mask _).2.1, (if_mask _).2.2.1, (if_mask _).2.2.2,
      mask_or, Bool.or_false, (mask_has ..).1, (mask_has ..).2, destinationIPCIDRMatchesSource,
      destinationIPCIDRMatchesDestination, Groups.toMatch, groups, isEmpty_append, List.any_append, hany,
      List.isEmpty_map, Bool.false_or, hsome, Bool.and_assoc]
    have hor : ∀ d : Bool, (d || !r.destinationIPCIDRItems.isEmpty && (!d && r.matchAnyAddressItem m c.toFlags)) =
        (d || r.matchAnyAddressItem m c.toFlags) := by
      intro d
      cases d <;> simp [hsomeaddr]
    cases c.ipCIDRMatchSource <;> cases c.ignoreDestinationIPCIDRMatch <;> cases c.ruleSetDomainOnly <;>
      simp [hor, haddr, hany]
  · simp only [evaluateGroups, hsome]
    cases matchAnyItem m r.destinationAddressItems <;> simp

end SingBox.Rules
