import SingBox.Cache.File
import SingBox.NetIP.Prefix

/-!
# DNS messages

A message as far as the client reads and changes it: the questions, the records with
their times to live, and the `OPT` records with a client subnet. The `TTL` field of an
`OPT` record holds its version and flags, so it is not a time to live.
-/
namespace SingBox.Cache

open SingBox.NetIP

def typeHTTPS : UInt16 := 65
def edns0Subnet : UInt16 := 8
def svcbIPv4Hint : UInt16 := 4
def svcbIPv6Hint : UInt16 := 6

structure Question where
  name : Bytes
  qtype : UInt16
  qclass : UInt16
  deriving DecidableEq

/-- An option of an `OPT` record: `EDNS0_SUBNET`, or any other. -/
inductive EDNS0 where
  | subnet (family : UInt16) (sourceNetmask sourceScope : UInt8) (address : Bytes)
  | other (code : UInt16) (data : Bytes)
  deriving DecidableEq

def EDNS0.option : EDNS0 → UInt16
  | .subnet .. => edns0Subnet
  | .other code _ => code

structure OPT where
  name : Bytes
  udpSize : UInt16
  ttl : UInt32
  options : List EDNS0
  deriving DecidableEq

structure SVCBKeyValue where
  key : UInt16
  value : Bytes
  deriving DecidableEq

inductive RData where
  | https (priority : UInt16) (target : Bytes) (value : List SVCBKeyValue)
  | soa (minttl : UInt32) (data : Bytes)
  | other (rrtype : UInt16) (data : Bytes)
  deriving DecidableEq

/-- A record: an `OPT` record, or one with a time to live. -/
inductive RR where
  | opt (o : OPT)
  | record (name : Bytes) (rrclass : UInt16) (ttl : UInt32) (data : RData)
  deriving DecidableEq

namespace RR

def opt? : RR → Option OPT
  | .opt o => some o
  | .record .. => none

def isOPT (rr : RR) : Bool := rr.opt?.isSome

def setTTL (timeToLive : UInt32) : RR → RR
  | .opt o => .opt o
  | .record name rrclass _ data => .record name rrclass timeToLive data

end RR

/-- `dns.Msg`. The other bits of the header go through unread. -/
structure Msg where
  id : UInt16
  flags : UInt16
  rcode : Nat
  question : List Question
  answer : List RR
  ns : List RR
  extra : List RR
  deriving DecidableEq

namespace Msg

variable (m : Msg)

def records : List RR := m.answer ++ m.ns ++ m.extra

def normalizeTTL (timeToLive : UInt32) : Msg :=
  { m with
    answer := m.answer.map (RR.setTTL timeToLive)
    ns := m.ns.map (RR.setTTL timeToLive)
    extra := m.extra.map (RR.setTTL timeToLive) }

def extractNegativeTTL : Option UInt32 :=
  m.ns.findSome? fun rr => match rr with
    | .record _ _ ttl (.soa minttl _) => some (if ttl < minttl then ttl else minttl)
    | _ => none

def computeTimeToLive : UInt32 :=
  match if m.answer.isEmpty then m.extractNegativeTTL else none with
  | some soaTTL => soaTTL
  | none =>
    m.records.foldl (fun timeToLive rr => match rr with
      | .opt _ => timeToLive
      | .record _ _ ttl _ => if timeToLive = 0 ∨ ttl > 0 ∧ ttl < timeToLive then ttl else timeToLive) 0

/-- The message but for its ID and the times to live of its records. -/
def content : Msg := { m.normalizeTTL 0 with id := 0 }

end Msg

/-! ### The client subnet of a message -/

def addrFromSlice (bytes : Bytes) : Option Addr :=
  if h : bytes.length = 4 then some (.v4 ⟨bytes.toArray, h⟩)
  else if bytes.length = 16 then
    some (.v6 (Vector.ofFn fun i : Fin 8 =>
      (bytes.getD (2 * i) 0).toUInt16 <<< 8 ||| (bytes.getD (2 * i + 1) 0).toUInt16))
  else none

def asSlice : Addr → Bytes
  | .zero => []
  | .v4 octets => octets.toList
  | .v6 groups => groups.toList.flatMap fun g : UInt16 => [(g >>> 8).toUInt8, g.toUInt8]

def unmap : Addr → Addr
  | .v6 groups =>
    if Addr.is4In6 groups then
      .v4 #v[(groups.get 6 >>> 8).toUInt8, (groups.get 6).toUInt8, (groups.get 7 >>> 8).toUInt8,
        (groups.get 7).toUInt8]
    else .v6 groups
  | a => a

/-- The first client subnet of the options. -/
def firstSubnet (options : List EDNS0) : Option (Bytes × UInt8) :=
  options.findSome? fun o => match o with
    | .subnet _ sourceNetmask _ address => some (address, sourceNetmask)
    | .other .. => none

def clientSubnetFromMessage (message : Msg) : Prefix :=
  match message.extra.findSome? fun rr => match rr with
    | .opt o => firstSubnet o.options
    | .record .. => none with
  | none => .zero
  | some (address, sourceNetmask) =>
    match addrFromSlice address with
    | none => .zero
    | some addr => .prefixFrom (unmap addr) sourceNetmask.toNat

def removeClientSubnet (message : Msg) : Msg :=
  { message with extra := message.extra.map fun rr => match rr with
      | .opt o => .opt { o with options := o.options.filter fun e => e.option != edns0Subnet }
      | rr => rr }

/-- The option of a client subnet. -/
def subnetOption (clientSubnet : Prefix) (sourceScope : UInt8) : EDNS0 :=
  .subnet (match clientSubnet.ip with | .v4 _ => 1 | _ => 2) (UInt8.ofNat (clientSubnet.bits.getD 0)) sourceScope
    (asSlice clientSubnet.ip)

/-- The first client subnet is replaced; nothing without one. -/
def replaceSubnet (clientSubnet : Prefix) : List EDNS0 → Option (List EDNS0)
  | [] => none
  | .subnet _ _ sourceScope _ :: options => some (subnetOption clientSubnet sourceScope :: options)
  | option :: options => (replaceSubnet clientSubnet options).map (option :: ·)

/-- The records up to one with a client subnet, which is replaced. Without one the last record is
looked at: an `OPT` record gets the subnet, behind any other a new one is added. -/
def setClientSubnetIn (clientSubnet : Prefix) : List RR → List RR
  | [] => [.opt ⟨[46], 0, 0, [subnetOption clientSubnet 0]⟩]
  | .opt o :: records =>
    match replaceSubnet clientSubnet o.options with
    | some options => .opt { o with options := options } :: records
    | none =>
      if records.isEmpty then [.opt { o with options := o.options ++ [subnetOption clientSubnet 0] }]
      else .opt o :: setClientSubnetIn clientSubnet records
  | rr :: records => rr :: setClientSubnetIn clientSubnet records

def setClientSubnet (message : Msg) (clientSubnet : Prefix) : Msg :=
  { message with extra := setClientSubnetIn clientSubnet message.extra }

end SingBox.Cache
