import SingBox.Route.Match

/-!
# Outbounds

Outbounds are found by their tags. A group stands for the member it has selected, unless it dials its members
itself.
-/
namespace SingBox.Route

/-- What a `FlowOutbound` answers to a packet that may go on as a flow. -/
inductive FlowAnswer where
  | continue
  | flow
  | reject
  deriving DecidableEq

/-- `adapter.Outbound`: `flow` is `PreMatchFlow` of a `FlowOutbound`, `supports` says that `Selected` of a group
has a member for the network. -/
inductive Outbound where
  | plain (tag : String) (networks : List Network) (flow : Option (Network → Option Addr → FlowAnswer))
  | dialing (tag : String) (networks : List Network)
  | group (tag : String) (supports : Network → Bool) (selected : Network → Outbound)

namespace Outbound

def tag : Outbound → String
  | plain tag _ _ => tag
  | dialing tag _ => tag
  | group tag _ _ => tag

/-- `PreMatchFlow`, if the outbound is a `FlowOutbound`. -/
def preMatchFlow? : Outbound → Option (Network → Option Addr → FlowAnswer)
  | plain _ _ flow => flow
  | _ => none

end Outbound

/-- `strings.ToUpper` of the name of a network. -/
def Network.upper : Network → String
  | .tcp => "TCP"
  | .udp => "UDP"
  | .icmp => "ICMP"

def notSupported (network : Network) (tag : String) : String :=
  s!"{network.upper} is not supported by outbound: {tag}"

/-- `resolveOutbound`: the outbound, the members it leads through, and the one that dials. -/
def resolveOutbound (network : Network) : Outbound → Except String (List Outbound)
  | .group tag supports selected =>
    if supports network then
      (resolveOutbound network (selected network)).map fun chain => .group tag supports selected :: chain
    else .error (notSupported network tag)
  | .plain tag networks flow =>
    if network ∈ networks then .ok [.plain tag networks flow] else .error (notSupported network tag)
  | .dialing tag networks =>
    if network ∈ networks then .ok [.dialing tag networks] else .error (notSupported network tag)

/-- The outbound manager; `defaultOutbound` is what the router has taken for its default when it started. -/
structure Outbounds where
  lookup : String → Option Outbound
  default : Outbound
  defaultOutbound : Outbound

variable {κ : Type}

/-- The outbound of the selected rule. -/
def selectedOutbound (outbounds : Outbounds) : Option (Action κ) → Except String Outbound
  | some (.route tag _) => (outbounds.lookup tag).elim (.error s!"outbound not found: {tag}") .ok
  | some (.bypass tag _) => (outbounds.lookup tag).elim (.error s!"outbound not found: {tag}") .ok
  | _ => .ok outbounds.defaultOutbound

end SingBox.Route
