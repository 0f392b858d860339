import SingBox.Cache.Message
import SingBox.DNS.Rules

/-!
# The cache of the DNS client

`beginExchange` up to the point where the request goes to the transport, and
`finishExchange` from the point where its response is back. A message is stored behind
`applyResponseOptions` and before the `OPT` record is adapted to the request.
-/
namespace SingBox.Cache

open SingBox.NetIP
open SingBox.DNS (DomainStrategy)

/-- `adapter.DNSQueryOptions`, as far as the client uses it. -/
structure QueryOptions where
  strategy : DomainStrategy
  disableCache : Bool
  disableOptimisticCache : Bool
  rewriteTTL : Option UInt32
  clientSubnet : Prefix
  removeClientSubnet : Bool
  deriving DecidableEq

structure DnsCacheKey where
  question : Question
  transportTag : Bytes
  clientSubnet : Prefix
  environment : UInt64
  deriving DecidableEq

namespace DnsCacheKey

variable (k : DnsCacheKey)

def persistentName : Bytes :=
  k.transportTag ++ (if k.clientSubnet.isValid then 0 :: k.clientSubnet.string else []) ++
    if k.environment ≠ 0 then 1 :: Lib.formatUint 36 k.environment.toNat else []

/-- What `SaveDNSCacheAsync` and `LoadDNSCache` are called with. -/
def saveKey : SaveCacheKey := ⟨k.persistentName, k.question.name, k.question.qtype⟩

end DnsCacheKey

/-- The methods of the DNS library that the client calls, and what it relies on: what was packed is
unpacked, and the `OPT` record is one of the extra records, of version 0 once it is set. -/
structure Codec (β : Type) where
  pack : Msg → Option β
  unpack : β → Option Msg
  isEdns0 : List RR → Option OPT
  setEdns0 : Msg → UInt16 → Bool → Msg
  version : OPT → UInt8
  dnssecOk : OPT → Bool
  unpack_pack : ∀ {m : Msg} {b : β}, pack m = some b → unpack b = some m
  isEdns0_setTTL : ∀ (extra : List RR) (t : UInt32), isEdns0 (extra.map (RR.setTTL t)) = isEdns0 extra
  isEdns0_eq_none : ∀ {extra : List RR}, (∀ rr ∈ extra, rr.isOPT = false) → isEdns0 extra = none
  isEdns0_setEdns0 : ∀ (m : Msg) (udpSize : UInt16) (ok : Bool),
    ∃ o, isEdns0 (setEdns0 m udpSize ok).extra = some o ∧ version o = 0

/-- Where the client stores responses: in memory, with the time they expire at, or in the cache file. -/
inductive Store (β : Type) where
  | off
  | memory (cache : DnsCacheKey → Option (Msg × Int))
  | persistent (file : File β)

/-- The transport of an exchange; its environment may change while a request is under way. -/
structure Transport where
  tag : Bytes

structure Client (β : Type) where
  disableCache : Bool
  disableExpire : Bool
  optimisticTimeout : Int
  clientSubnet : Prefix
  store : Store β

structure Operation where
  message : Msg
  question : Question
  messageId : UInt16
  options : QueryOptions
  disableCache : Bool
  cacheKey : DnsCacheKey
  deriving DecidableEq

/-- What `beginExchange` comes to: an answer, or an exchange to be made. -/
inductive Begin where
  | done (response : Msg) (cached stale : Bool)
  | ready (operation : Operation)
  deriving DecidableEq

/-- A second in nanoseconds. -/
def second : Int := 1000000000

/-- `FixedResponseStatus`: an authoritative response, with recursion desired and available. -/
def fixedResponseStatus (message : Msg) (rcode : Nat) : Msg :=
  ⟨message.id, 0x8580, rcode, message.question, [], [], []⟩

def filterHTTPS (strategy : DomainStrategy) : RR → RR
  | .record name rrclass ttl (.https priority target value) =>
    .record name rrclass ttl (.https priority target (value.filter fun it =>
      if strategy = .ipv4Only then it.key != svcbIPv6Hint else it.key != svcbIPv4Hint))
  | rr => rr

/-- The answers behind the filter of the hints that a strategy leaves out. -/
def filteredAnswer (question : Question) (answer : List RR) (strategy : DomainStrategy) : List RR :=
  if question.qtype = typeHTTPS ∧ (strategy = .ipv4Only ∨ strategy = .ipv6Only) then answer.map (filterHTTPS strategy)
  else answer

def applyResponseOptions (question : Question) (response : Msg) (options : QueryOptions) : Msg × UInt32 :=
  let response := { response with answer := filteredAnswer question response.answer options.strategy }
  let timeToLive := options.rewriteTTL.getD response.computeTimeToLive
  (response.normalizeTTL timeToLive, timeToLive)

def isSimpleRequest (message : Msg) : Bool :=
  message.question.length == 1 && message.ns.isEmpty && match message.extra with
    | [] => true
    | [.opt o] => o.udpSize > 0 && o.ttl == 0 && o.options.all fun it => it.option == edns0Subnet
    | _ => false

namespace Client

variable {β : Type} (codec : Codec β) (c : Client β)

def prepareExchangeMessage (message : Msg) (options : QueryOptions) : Msg :=
  if options.removeClientSubnet then removeClientSubnet message
  else
    let clientSubnet := if options.clientSubnet.isValid then options.clientSubnet else c.clientSubnet
    if clientSubnet.isValid then setClientSubnet message clientSubnet else message

def newCacheKey (transport : Transport) (environment : UInt64) (question : Question) (message : Msg)
    (options : QueryOptions) : DnsCacheKey where
  question := question
  transportTag := transport.tag
  environment := environment
  clientSubnet :=
    if options.removeClientSubnet then .zero
    else if options.clientSubnet.isValid then options.clientSubnet
    else if c.clientSubnet.isValid then c.clientSubnet
    else clientSubnetFromMessage message

def storeCache (key : DnsCacheKey) (message : Msg) (timeToLive : UInt32) (now : Int) : Client β :=
  if timeToLive = 0 then c
  else
    let expireAt := now + second * timeToLive.toNat
    match c.store with
    | .persistent file =>
      match codec.pack message with
      | some packed => { c with store := .persistent (file.queueDNSCacheSave key.saveKey ⟨packed, expireAt⟩) }
      | none => c
    | .memory cache => { c with store := .memory (Function.update cache key (some (message, expireAt))) }
    | .off => c

/-- The part `loadResponse` and `loadPersistentResponse` share: is the entry fresh, stale or gone. -/
def judgeExpiry (response : Msg) (expireAt now : Int) : Option (Msg × Bool) :=
  if now > expireAt then
    if c.optimisticTimeout > 0 ∧ now < expireAt + c.optimisticTimeout then some (response.normalizeTTL 1, true)
    else none
  else some (response.normalizeTTL (UInt32.ofNat ((expireAt - now) / second).toNat), false)

/-- `loadResponse`: the response, and whether it is stale. The removal of an entry that has expired
is left out: it is not seen again. -/
def loadResponse (key : DnsCacheKey) (now : Int) : Option (Msg × Bool) :=
  match c.store with
  | .persistent file =>
    match file.loadDNSCache key.saveKey with
    | none => none
    | some value =>
      match codec.unpack value.rawMessage with
      | none => none
      | some response => if c.disableExpire then some (response, false) else c.judgeExpiry response value.expireAt now
  | .memory cache =>
    match cache key with
    | none => none
    | some (response, expireAt) =>
      if c.disableExpire then some (response, false) else c.judgeExpiry response expireAt now
  | .off => none

/-- The operation of a request that is not answered right away. -/
def operation (transport : Transport) (environment : UInt64) (question : Question) (message : Msg)
    (options : QueryOptions) : Operation :=
  let prepared := c.prepareExchangeMessage message options
  { message := prepared
    question := question
    messageId := prepared.id
    options := options
    disableCache := !isSimpleRequest message || c.disableCache || options.disableCache
    cacheKey := c.newCacheKey transport environment question prepared options }

/-- `beginExchange` of a request without a response checker that need not wait for another one. -/
def beginExchange (transport : Transport) (environment : UInt64) (message : Msg) (options : QueryOptions) (now : Int) :
    Begin :=
  match message.question with
  | [] => .done (fixedResponseStatus message 1) false false
  | question :: _ =>
    if question.qtype = 1 ∧ options.strategy = .ipv6Only ∨ question.qtype = 28 ∧ options.strategy = .ipv4Only then
      .done (fixedResponseStatus message 0) false false
    else
      let operation := c.operation transport environment question message options
      if operation.disableCache then .ready operation
      else
        match c.loadResponse codec operation.cacheKey now with
        | some (response, stale) =>
          if !stale || !options.disableOptimisticCache then
            .done { response with id := operation.message.id } true stale
          else .ready operation
        | none => .ready operation

def finishCacheKey (environment : UInt64) (key : DnsCacheKey) : Option DnsCacheKey :=
  if environment = key.environment ∨ key.environment = 0 then some { key with environment := environment } else none

/-- The `OPT` record of a response does not fit the request. -/
def unfitEDNS (operation : Operation) (response : Msg) : Bool :=
  match codec.isEdns0 response.extra with
  | none => false
  | some responseEDNSOpt => (codec.isEdns0 operation.message.extra).all fun requestEDNSOpt =>
    codec.version requestEDNSOpt < codec.version responseEDNSOpt

/-- The end of `finishExchange`, which adapts the response to its request. -/
def adaptEDNS (operation : Operation) (response : Msg) : Msg :=
  if unfitEDNS codec operation response then
    let stripped := { response with extra := response.extra.filter fun it => !it.isOPT }
    match codec.isEdns0 operation.message.extra, codec.isEdns0 response.extra with
    | some _, some responseEDNSOpt =>
      codec.setEdns0 stripped responseEDNSOpt.udpSize (codec.dnssecOk responseEDNSOpt)
    | _, _ => stripped
  else response

/-- `finishExchange` without a response checker: the response, and the client behind it. -/
def finishExchange (environment : UInt64) (operation : Operation) (response : Msg) (now : Int) : Msg × Client β :=
  let disableCache := operation.disableCache || (response.rcode != 0 && response.rcode != 3)
  let (response, timeToLive) := applyResponseOptions operation.question response operation.options
  let c' :=
    if disableCache then c
    else
      match finishCacheKey environment operation.cacheKey with
      | some cacheKey => c.storeCache codec cacheKey response timeToLive now
      | none => c
  (adaptEDNS codec operation { response with id := operation.messageId }, c')

end Client
end SingBox.Cache
