import SingBox.Lib.Strings

/-!
# The metadata of a connection

What the router knows of a connection while it walks its rules, and how rules and the FakeIP store change it.
-/
namespace SingBox.Route

open Lib.Strings

inductive Addr where
  | v4 (bits : BitVec 32)
  | v6 (bits : BitVec 128)
  deriving DecidableEq

namespace Addr

def is4 : Addr → Bool
  | v4 _ => true
  | v6 _ => false

end Addr

/-- The address or the name of a `Socksaddr`. -/
inductive Host where
  | unspecified
  | ip (addr : Addr)
  | name (fqdn : String)
  deriving DecidableEq

structure Socksaddr where
  host : Host
  port : UInt16
  deriving DecidableEq

inductive Network where
  | tcp
  | udp
  | icmp
  deriving DecidableEq

/-- An error of sniffers; `needMoreData` says that `ErrNeedMoreData` is among the causes. -/
structure SniffError where
  needMoreData : Bool
  causes : List String
  deriving DecidableEq

/-- What rule actions say about dialling. -/
structure DialOptions where
  networkStrategy : Option Nat
  networkType : List Nat
  fallbackNetworkType : List Nat
  fallbackDelay : Int
  udpDisableDomainUnmapping : Bool
  udpConnect : Bool
  udpTimeout : Int
  tlsFragment : Bool
  tlsFragmentFallbackDelay : Int
  tlsRecordFragment : Bool
  tlsSpoof : String
  tlsSpoofMethod : Nat
  deriving DecidableEq

def DialOptions.zero : DialOptions := ⟨none, [], [], 0, false, false, 0, false, 0, false, "", 0⟩

/-- What rules see of a connection: `κ` is the state a sniffer leaves for the next packet, `ρ` what does
not change while the rules are walked. -/
structure View (κ ρ : Type) where
  network : Network
  ipVersion : Nat
  destination : Socksaddr
  originDestination : Socksaddr
  fakeIP : Bool
  destinationAddresses : List Addr
  protocol : String
  domain : String
  client : String
  sniffContext : Option κ
  snifferNames : List String
  sniffError : Option SniffError
  dial : DialOptions
  preMatch : Bool
  rest : ρ
  deriving DecidableEq

/-- `adapter.InboundContext`; no rule looks at `RouteOriginalDestination`. -/
structure Metadata (κ ρ : Type) extends View κ ρ where
  routeOriginalDestination : Socksaddr
  deriving DecidableEq

/-- The metadata an inbound makes of a connection: all but these has its zero value. -/
def Metadata.new {κ ρ : Type} (network : Network) (destination : Socksaddr) (rest : ρ) : Metadata κ ρ where
  network := network
  ipVersion := 0
  destination := destination
  originDestination := ⟨.unspecified, 0⟩
  fakeIP := false
  destinationAddresses := []
  protocol := ""
  domain := ""
  client := ""
  sniffContext := none
  snifferNames := []
  sniffError := none
  dial := .zero
  preMatch := false
  rest := rest
  routeOriginalDestination := ⟨.unspecified, 0⟩

/-- `RuleActionRouteOptions`. -/
structure RouteOptions where
  overrideAddress : Host
  overridePort : UInt16
  dial : DialOptions
  deriving DecidableEq

/-- `RuleActionResolve`. -/
structure ResolveAction where
  server : String
  timeout : Int
  strategy : Nat
  disableCache : Bool
  disableOptimisticCache : Bool
  rewriteTTL : Option UInt32
  clientSubnet : Option String
  deriving DecidableEq

/-- The fields of the metadata a sniffer sets. -/
structure SniffWrites (κ : Type) where
  protocol : Option String
  domain : Option String
  client : Option String
  sniffContext : Option (Option κ)

/-- A sniffer reads the client and the context of the metadata, and what was received. One that panics fails
and sets nothing. -/
abbrev Sniffer (κ : Type) := String → Option κ → Bytes → SniffWrites κ × Option SniffError

/-- The FakeIP store: the addresses that are given out, and the names they were given out for. -/
structure FakeIPStore where
  contains : Addr → Bool
  lookup : Addr → Option String

/-- What the router asks: `M.IsDomainName`, the reverse mapping of DNS answers, DNS, and the sniffers of a rule
that names none. -/
structure Env (κ ρ : Type) where
  isDomainName : String → Bool
  isDomainName_empty : isDomainName "" = false
  lookupReverseMapping : Addr → Option String
  hasTransport : String → Bool
  lookup : View κ ρ → String → ResolveAction → Except String (List Addr)
  defaultStreamSniffers : List (Sniffer κ)
  defaultPacketSniffers : List (Sniffer κ)
  quicClientHello : Sniffer κ

variable {κ ρ : Type} (env : Env κ ρ)

def Host.isDomain : Host → Bool
  | .name fqdn => env.isDomainName fqdn
  | _ => false

def Host.isValid : Host → Bool
  | .unspecified => false
  | .ip _ => true
  | .name fqdn => env.isDomainName fqdn

/-- `Destination.IsIPv4` and `IsIPv6`. -/
def setIPVersion (m : Metadata κ ρ) : Metadata κ ρ :=
  match m.destination.host with
  | .ip addr => { m with ipVersion := if addr.is4 then 4 else 6 }
  | _ => m

/-- A FakeIP address stands for the name in the store. -/
def setFakeIP (m : Metadata κ ρ) (domain : String) : Metadata κ ρ :=
  { m with
    originDestination := m.destination
    destination := { host := .name domain, port := m.destination.port }
    fakeIP := true }

/-- A name that DNS answers have given the address, if the connection has no other. -/
def setReverseMapping (m : Metadata κ ρ) : Metadata κ ρ :=
  if m.domain = "" then
    match m.destination.host with
    | .ip addr => { m with domain := (env.lookupReverseMapping addr).getD m.domain }
    | _ => m
  else m

/-- `prepareMatchMetadata`; `none` is `errMissingFakeIPRecord`. What is looked up for the source stays in
`rest`. -/
def prepareMatchMetadata (store : FakeIPStore) (m : Metadata κ ρ) : Option (Metadata κ ρ) :=
  match m.destination.host with
  | .ip addr =>
    if store.contains addr then
      match store.lookup addr with
      | none => none
      | some domain => some (setIPVersion (if domain = "" then m else setFakeIP m domain))
    else some (setIPVersion (setReverseMapping env m))
  | _ => some (setIPVersion (setReverseMapping env m))

def applyRouteOptionsOverride (m : Metadata κ ρ) (options : RouteOptions) : Metadata κ ρ :=
  let m := if options.overrideAddress.isValid env then
      { m with destination := { host := options.overrideAddress, port := m.destination.port } }
    else m
  let m := if options.overridePort > 0 then
      { m with destination := { host := m.destination.host, port := options.overridePort } }
    else m
  if options.dial.udpTimeout > 0 then { m with dial := { m.dial with udpTimeout := options.dial.udpTimeout } } else m

/-- The other options of a rule, as `matchRule` takes them over. -/
def applyDialOptions (dial options : DialOptions) : DialOptions where
  networkStrategy := options.networkStrategy.or dial.networkStrategy
  networkType := if options.networkType ≠ [] then options.networkType else dial.networkType
  fallbackNetworkType :=
    if options.fallbackNetworkType ≠ [] then options.fallbackNetworkType else dial.fallbackNetworkType
  fallbackDelay := if options.fallbackDelay ≠ 0 then options.fallbackDelay else dial.fallbackDelay
  udpDisableDomainUnmapping := options.udpDisableDomainUnmapping || dial.udpDisableDomainUnmapping
  udpConnect := options.udpConnect || dial.udpConnect
  udpTimeout := if options.udpTimeout > 0 then options.udpTimeout else dial.udpTimeout
  tlsFragment := options.tlsFragment || dial.tlsFragment
  tlsFragmentFallbackDelay :=
    if options.tlsFragment then options.tlsFragmentFallbackDelay else dial.tlsFragmentFallbackDelay
  tlsRecordFragment := options.tlsRecordFragment || dial.tlsRecordFragment
  tlsSpoof := if options.tlsSpoof ≠ "" then options.tlsSpoof else dial.tlsSpoof
  tlsSpoofMethod := if options.tlsSpoof ≠ "" then options.tlsSpoofMethod else dial.tlsSpoofMethod

/-- What `matchRule` does with the options of a route, a bypass or a route-options rule. -/
def applyRouteOptions (m : Metadata κ ρ) (options : RouteOptions) : Metadata κ ρ :=
  let overrides := options.overrideAddress.isValid env ∨ options.overridePort > 0
  let m := if overrides ∧ m.routeOriginalDestination.host.isValid env = false then
      { m with routeOriginalDestination := m.destination }
    else m
  let m := if options.overrideAddress.isValid env then { m with destinationAddresses := [] } else m
  let m := applyRouteOptionsOverride env m options
  { m with dial := applyDialOptions m.dial options.dial }

def actionResolve (m : Metadata κ ρ) (action : ResolveAction) : Except String (Metadata κ ρ) :=
  match m.destination.host with
  | .name fqdn =>
    if env.isDomainName fqdn then
      if action.server ≠ "" ∧ env.hasTransport action.server = false then
        .error s!"DNS server not found: {action.server}"
      else
        match env.lookup m.toView fqdn action with
        | .error e => .error e
        | .ok addresses => .ok { m with destinationAddresses := addresses }
    else .ok m
  | _ => .ok m

end SingBox.Route
