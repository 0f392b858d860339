import SingBox.Route.Connection

/-!
# The packet fast path

`PreMatch` walks the same rules for the first packet of a connection and may send the packets of the connection
to an outbound as a flow, without a connection being made.
-/
namespace SingBox.Route

open Lib.Strings

inductive PreMatchAction where
  | continue
  | flow
  | reject
  | drop
  | bypass
  | hijackDNS
  deriving DecidableEq

/-- `adapter.PreMatchResult`, without the tracker. -/
structure PreMatchResult where
  action : PreMatchAction
  outbound : Option Outbound
  destination : Option (Addr × UInt16)
  udpTimeout : Int

def PreMatchResult.of (action : PreMatchAction) : PreMatchResult := ⟨action, none, none, 0⟩

def FlowAnswer.action : FlowAnswer → PreMatchAction
  | .continue => .continue
  | .flow => .flow
  | .reject => .reject

/-- `C.PortProtocols`. -/
def portProtocol (port : UInt16) : String :=
  if port = 53 then "dns" else if port = 123 then "ntp" else if port = 3478 then "stun"
  else if port = 443 then "quic" else ""

/-- `C.ProtocolTimeouts`, in nanoseconds. -/
def protocolTimeout (protocol : String) : Int :=
  if protocol ∈ ["dns", "ntp", "stun"] then 10000000000 else if protocol ∈ ["quic", "dtls"] then 30000000000 else 0

variable {κ ρ : Type} (env : Env κ ρ)

def flowTimeout (m : Metadata κ ρ) : Int :=
  if m.network = .udp then
    if m.dial.udpTimeout > 0 then m.dial.udpTimeout
    else protocolTimeout (if m.protocol = "" then portProtocol m.destination.port else m.protocol)
  else 0

/-- `Socksaddr.AddrPort`, if it is valid. -/
def Socksaddr.addrPort? (s : Socksaddr) : Option (Addr × UInt16) := s.host.addr.map fun addr => (addr, s.port)

def isIPv4 (s : Socksaddr) : Bool := (s.host.addr.map Addr.is4).getD false

/-- The outbound of a tag is a `FlowOutbound`, and takes the packets to where the connection goes. -/
def flowTo (outbound : Outbound) (flow : Network → Option Addr → FlowAnswer) (m : Metadata κ ρ)
    (packetDestination : Socksaddr) : PreMatchResult :=
  if flow m.network m.destination.host.addr ≠ .flow then
    ⟨(flow m.network m.destination.host.addr).action, some outbound, none, 0⟩
  else if m.destination.host.isDomain env then
    if m.fakeIP = false then .of .continue
    else
      match m.destinationAddresses.find? fun addr => addr.is4 = isIPv4 packetDestination with
      | none => .of .reject
      | some addr =>
        if flow m.network (some addr) ≠ .flow then ⟨(flow m.network (some addr)).action, some outbound, none, 0⟩
        else ⟨.flow, some outbound, some (addr, m.destination.port), flowTimeout m⟩
  else if m.destination ≠ packetDestination then ⟨.flow, some outbound, m.destination.addrPort?, flowTimeout m⟩
  else ⟨.flow, some outbound, none, flowTimeout m⟩

def preMatchFlow (outbounds : Outbounds) (m : Metadata κ ρ) (packetDestination : Socksaddr) (tag : String) :
    PreMatchResult :=
  match if tag = "" then some outbounds.default else outbounds.lookup tag with
  | none => .of .continue
  | some outbound =>
    match (resolveOutbound m.network outbound).toOption.bind List.getLast? with
    | none => .of .continue
    | some outbound =>
      match outbound.preMatchFlow? with
      | none => .of .continue
      | some flow => flowTo env outbound flow m packetDestination

/-- How a rule leaves the walk of `PreMatch`: at the next rule, with a rule selected, or done. -/
inductive PreFlow (κ ρ : Type) where
  | next (m : Metadata κ ρ)
  | select (action : Action κ) (m : Metadata κ ρ)
  | done (result : PreMatchResult)

/-- The sniffers of a rule on the first packet. -/
def sniffFirst (firstPacket : Bytes) (action : SniffAction κ) (m : Metadata κ ρ) : Peeked κ ρ :=
  record action (runSniffers firstPacket
    (if action.packetSniffers ≠ [] then action.packetSniffers else env.defaultPacketSniffers) ⟨m, none, none⟩)

/-- A sniff rule has only the first packet. -/
def preMatchSniff (firstPacket : Bytes) (action : SniffAction κ) (m : Metadata κ ρ) : PreFlow κ ρ :=
  if m.network = .icmp then .next m
  else if m.network ≠ .udp ∨ firstPacket = [] then .done (.of .continue)
  else if skipPort m.destination.port ∨ m.protocol ≠ "" then .next m
  else if action.packetSniffers = [] ∧ action.streamSniffers ≠ [] then .next m
  else if m.snifferNames = action.snifferNames ∧ m.sniffError ≠ none then .next m
  else if needMoreData (sniffFirst env firstPacket action m).error then .done (.of .continue)
  else .next (overrideSniffed env action (sniffFirst env firstPacket action m))

/-- The action of a rule that matches; `flooded` says that a reject action has had too many connections lately. -/
def preMatchAction (flooded : Bool) (firstPacket : Bytes) (action : Action κ) (m : Metadata κ ρ) : PreFlow κ ρ :=
  match action with
  | .sniff sniff => preMatchSniff env firstPacket sniff m
  | .routeOptions options => .next (applyRouteOptionsOverride env m options)
  | .route _ options => .select action (applyRouteOptionsOverride env m options)
  | .bypass _ options => .select action (applyRouteOptionsOverride env m options)
  | .reject .reply _ => .done (.of (if m.network = .icmp then .continue else .reject))
  | .reject .drop _ => .done (.of .drop)
  | .reject .default noDrop => .done (.of (if noDrop || !flooded then .reject else .drop))
  | .hijackDNS => .done (.of (if m.network ≠ .udp then .continue else .hijackDNS))
  | .resolve resolve =>
    match actionResolve env m resolve with
    | .error _ => .done (.of .reject)
    | .ok m => .next m

def preMatchRule (flooded : Bool) (firstPacket : Bytes) (rule : Rule κ ρ) (m : Metadata κ ρ) : PreFlow κ ρ :=
  if rule.matches? m.toView then preMatchAction env flooded firstPacket rule.action m else .next m

def PreFlow.andThen (flow : PreFlow κ ρ) (k : Metadata κ ρ → PreFlow κ ρ) : PreFlow κ ρ :=
  match flow with
  | .next m => k m
  | .select action m => .select action m
  | .done result => .done result

/-- The loop of `PreMatch`. -/
def preMatchWalk (flooded : Bool) (firstPacket : Bytes) : List (Rule κ ρ) → Metadata κ ρ → PreFlow κ ρ
  | [], m => .next m
  | rule :: rules, m =>
    (preMatchRule env flooded firstPacket rule m).andThen (preMatchWalk flooded firstPacket rules)

/-- A bypass rule is selected. -/
def preMatchBypass (outbounds : Outbounds) (m : Metadata κ ρ) (packetDestination : Socksaddr) (tag : String) :
    PreMatchResult :=
  let changed := m.destination.host.isDomain env || decide (m.destination ≠ packetDestination)
  if tag = "" then .of (if changed then .continue else .bypass)
  else if changed then preMatchFlow env outbounds m packetDestination tag
  else
    let result := preMatchFlow env outbounds m packetDestination tag
    if result.action ≠ .flow then .of .bypass else { result with action := .bypass }

/-- What `PreMatch` returns behind its walk. -/
def PreFlow.result (outbounds : Outbounds) (packetDestination : Socksaddr) : PreFlow κ ρ → PreMatchResult
  | .next m => preMatchFlow env outbounds m packetDestination ""
  | .select (.route tag _) m => preMatchFlow env outbounds m packetDestination tag
  | .select (.bypass tag _) m => preMatchBypass env outbounds m packetDestination tag
  | .select _ _ => .of .continue
  | .done result => result

def preMatch (outbounds : Outbounds) (flooded : Bool) (store : FakeIPStore) (rules : List (Rule κ ρ))
    (m : Metadata κ ρ) (firstPacket : Bytes) : PreMatchResult :=
  match prepareMatchMetadata env store { m with preMatch := true } with
  | none => .of .continue
  | some m' => (preMatchWalk env flooded firstPacket rules m').result env outbounds m.destination

end SingBox.Route
