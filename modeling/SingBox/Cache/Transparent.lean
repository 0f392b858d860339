import SingBox.Cache.Client

/-!
# Answers from the cache

What the second of two requests with one key is answered from the cache, compared with
what `finishExchange` would make of the same upstream response for it. The entry is
shaped by the strategy of the first request and is not adapted to the EDNS of the second.
-/
namespace SingBox.Cache

open Option List Client

open SingBox.DNS (DomainStrategy)

namespace RR

@[simp] theorem setTTL_setTTL (t t' : UInt32) (rr : RR) : (rr.setTTL t').setTTL t = rr.setTTL t := by
  cases rr <;> rfl

end RR

namespace Msg

variable (m : Msg)

@[simp] theorem content_normalizeTTL (t : UInt32) : (m.normalizeTTL t).content = m.content := by
  simp [content, normalizeTTL]

end Msg

/-- The filter of one answer. -/
def filterAnswer (question : Question) (strategy : DomainStrategy) (rr : RR) : RR :=
  if question.qtype = typeHTTPS ∧ (strategy = .ipv4Only ∨ strategy = .ipv6Only) then filterHTTPS strategy rr else rr

theorem filteredAnswer_eq_map (question : Question) (answer : List RR) (strategy : DomainStrategy) :
    filteredAnswer question answer strategy = answer.map (filterAnswer question strategy) := by
  unfold filteredAnswer filterAnswer
  split <;> simp

variable {question : Question} {s s' : DomainStrategy}

/-- What the filter does is seen without the time to live. -/
theorem setTTL_filterAnswer_inj {rr : RR}
    (h : (filterAnswer question s rr).setTTL 0 = (filterAnswer question s' rr).setTTL 0) :
    filterAnswer question s rr = filterAnswer question s' rr := by
  cases rr with
  | opt o =>
    unfold filterAnswer
    split <;> split <;> rfl
  | record name rrclass ttl data =>
    -- the filter keeps the time to live
    have hkeeps : ∀ s, (filterAnswer question s (.record name rrclass ttl data)).setTTL ttl =
        filterAnswer question s (.record name rrclass ttl data) := by
      intro s
      unfold filterAnswer
      split
      · cases data <;> rfl
      · rfl
    have := congrArg (RR.setTTL ttl) h
    rwa [RR.setTTL_setTTL, RR.setTTL_setTTL, hkeeps, hkeeps] at this

theorem filteredAnswer_inj {answer : List RR}
    (h : (filteredAnswer question answer s).map (RR.setTTL 0) = (filteredAnswer question answer s').map (RR.setTTL 0)) :
    filteredAnswer question answer s = filteredAnswer question answer s' := by
  rw [filteredAnswer_eq_map, filteredAnswer_eq_map, List.map_map, List.map_map, List.map_inj_left] at h
  rw [filteredAnswer_eq_map, filteredAnswer_eq_map]
  exact List.map_congr_left fun rr hrr => setTTL_filterAnswer_inj (h rr hrr)

namespace Client

variable {β : Type} {codec : Codec β} {c : Client β}

variable {operation : Operation} {response : Msg} {environment : UInt64}

/-- A response with an `OPT` record that does not fit is changed. -/
theorem content_adaptEDNS_ne (h : unfitEDNS codec operation response = true) :
    (adaptEDNS codec operation response).content.extra ≠ response.content.extra := by
  intro heq
  have hsame : codec.isEdns0 (adaptEDNS codec operation response).extra = codec.isEdns0 response.extra := by
    rw [← codec.isEdns0_setTTL _ 0, ← codec.isEdns0_setTTL response.extra 0]
    exact congrArg codec.isEdns0 heq
  have hadapt := h
  unfold unfitEDNS at h
  rw [adaptEDNS, if_pos hadapt] at hsame
  cases hresponse : codec.isEdns0 response.extra with
  | none => simp [hresponse] at h
  | some responseOpt =>
    rw [hresponse] at h hsame
    cases hrequest : codec.isEdns0 operation.message.extra with
    | none =>
      rw [hrequest] at hsame
      rw [codec.isEdns0_eq_none fun rr hrr => by simpa using (mem_filter.mp hrr).2] at hsame
      cases hsame
    | some requestOpt =>
      rw [hrequest] at h hsame
      obtain ⟨o, ho, hversion⟩ := codec.isEdns0_setEdns0
        { response with extra := response.extra.filter fun it => !it.isOPT } responseOpt.udpSize
        (codec.dnssecOk responseOpt)
      cases ho.symm.trans hsame
      simp [hversion] at h

/-- The content of an entry against that of an adapted response from which it differs in its answers only. -/
theorem content_adaptEDNS_iff {stored : Msg}
    (hrest : { stored.content with answer := [] } = { response.content with answer := [] }) :
    stored.content = (adaptEDNS codec operation response).content ↔
      stored.content.answer = response.content.answer ∧ unfitEDNS codec operation response = false := by
  simp only [Msg.mk.injEq, true_and] at hrest
  obtain ⟨hid, hflags, hrcode, hquestion, hns, hextra⟩ := hrest
  cases hunfit : unfitEDNS codec operation response with
  | true =>
    simp only [reduceCtorEq, and_false, iff_false]
    intro heq
    exact content_adaptEDNS_ne hunfit (by rw [← heq, hextra])
  | false =>
    have hadapt : adaptEDNS codec operation response = response := by
      rw [adaptEDNS, hunfit]
      rfl
    rw [hadapt, and_iff_left rfl]
    constructor
    · intro heq
      rw [heq]
    · intro hanswer
      rw [Msg.mk.injEq]
      exact ⟨hid, hflags, hrcode, hquestion, hanswer, hns, hextra⟩

/-- An exchange leaves an entry under `key`. -/
structure Leaves (codec : Codec β) (c : Client β) (environment : UInt64) (operation : Operation) (upstream : Msg)
    (key : DnsCacheKey) : Prop where
  enabled : operation.disableCache = false
  rcode : upstream.rcode = 0 ∨ upstream.rcode = 3
  key_eq : finishCacheKey environment operation.cacheKey = some key
  ttl : (applyResponseOptions operation.question upstream operation.options).2 ≠ 0
  store : match c.store with
    | .off => False
    | .memory _ => True
    | .persistent _ => (codec.pack (applyResponseOptions operation.question upstream operation.options).1).isSome

variable {stale : Bool} {transport : Transport} {message : Msg} {options : QueryOptions} {now : Int}

/-- What is loaded under the key behind the exchange is what the exchange stored. -/
theorem Leaves.load {upstream : Msg} {key : DnsCacheKey} (h : Leaves codec c environment operation upstream key)
    (now later : Int)
    (hload : (c.finishExchange codec environment operation upstream now).2.loadResponse codec key later =
      some (response, stale)) :
    response.content = (applyResponseOptions operation.question upstream operation.options).1.content := by
  have hrcode : (upstream.rcode != 0 && upstream.rcode != 3) = false := by
    rcases h.rcode with h | h <;> simp [h]
  have hexpiry : ∀ (c' : Client β) (message : Msg) (expireAt : Int) {r : Msg × Bool},
      (if c'.disableExpire then some (message, false) else c'.judgeExpiry message expireAt later) = some r →
      r.1.content = message.content := by
    intro c' message expireAt r hr
    split at hr
    · cases hr
      rfl
    unfold judgeExpiry at hr
    split at hr
    · split at hr
      · cases hr
        exact message.content_normalizeTTL _
      · cases hr
    · cases hr
      exact message.content_normalizeTTL _
  simp only [finishExchange, h.enabled, hrcode, Bool.or_self, Bool.false_eq_true, if_false, h.key_eq, storeCache,
    h.ttl] at hload
  have hstore := h.store
  cases hs : c.store with
  | off => simp [hs] at hstore
  | memory cache =>
    simp only [hs, loadResponse, Function.update_self] at hload
    exact hexpiry _ _ _ hload
  | persistent file =>
    rw [hs] at hstore
    obtain ⟨packed, hpack⟩ := isSome_iff_exists.mp hstore
    simp only [hs, hpack, loadResponse, File.loadDNSCache, File.queueDNSCacheSave, Function.update_self,
      codec.unpack_pack hpack] at hload
    exact hexpiry _ _ _ hload

theorem beginExchange_ready (h : c.beginExchange codec transport environment message options now = .ready operation) :
    ∃ question rest, message.question = question :: rest ∧
      operation = c.operation transport environment question message options := by
  unfold beginExchange at h
  split at h
  · cases h
  next question rest hquestion =>
    refine ⟨question, rest, hquestion, ?_⟩
    split at h
    · cases h
    dsimp only at h
    split at h
    · cases h
      rfl
    split at h
    · split at h
      · cases h
      · cases h
        rfl
    · cases h
      rfl

/-- An answer from the cache is the entry of its key. -/
theorem beginExchange_cached {question : Question} {rest : List Question} {answer : Msg}
    (hquestion : message.question = question :: rest)
    (h : c.beginExchange codec transport environment message options now = .done answer true stale) :
    ∃ response, c.loadResponse codec (c.operation transport environment question message options).cacheKey now =
      some (response, stale) ∧ answer.content = response.content := by
  unfold beginExchange at h
  rw [hquestion] at h
  dsimp only at h
  split at h
  · cases h
  split at h
  · cases h
  split at h
  next response stale' hload =>
    split at h
    · cases h
      exact ⟨response, hload, rfl⟩
    · cases h
  · cases h

/-- What a client prepares does not depend on what it has stored. -/
theorem operation_finishExchange (codec : Codec β) (c : Client β) (environment : UInt64) (first : Operation)
    (upstream : Msg) (now : Int) (transport : Transport) (environment' : UInt64) (question : Question) (message : Msg)
    (options : QueryOptions) :
    (c.finishExchange codec environment first upstream now).2.operation transport environment' question message
        options =
      c.operation transport environment' question message options := by
  have hsame : ∀ {c' : Client β}, c'.disableCache = c.disableCache → c'.clientSubnet = c.clientSubnet →
      c'.operation transport environment' question message options =
        c.operation transport environment' question message options := by
    intro c' hdisable hsubnet
    simp only [operation, prepareExchangeMessage, newCacheKey, hdisable, hsubnet]
  simp only [finishExchange]
  split
  · rfl
  split
  · unfold storeCache
    split
    · rfl
    dsimp only
    split
    · split
      · exact hsame rfl rfl
      · rfl
    · exact hsame rfl rfl
    · rfl
  · rfl

end Client

/-- A request that is answered from the fresh entry another one left is answered as from upstream
if and only if both strategies leave the same in the answers and the `OPT` record of the response
fits the request. -/
theorem cached_answer_iff {β : Type} (codec : Codec β) (c : Client β) (transport : Transport)
    (environment₁ environment₁' environment₂ environment₂' : UInt64) (question : Question) (message₁ message₂ : Msg)
    (options₁ options₂ : QueryOptions) (operation₁ : Operation) (upstream answer : Msg)
    (begun stored now finished : Int)
    (hready : c.beginExchange codec transport environment₁ message₁ options₁ begun = .ready operation₁)
    (hquestion : message₂.question = [question])
    (hleaves : Client.Leaves codec c environment₁' operation₁ upstream
      (c.operation transport environment₂ question message₂ options₂).cacheKey)
    (hcached : (c.finishExchange codec environment₁' operation₁ upstream stored).2.beginExchange codec transport
      environment₂ message₂ options₂ now = .done answer true false) :
    answer.content =
      (c.finishExchange codec environment₂' (c.operation transport environment₂ question message₂ options₂)
        upstream finished).1.content ↔
      filteredAnswer question upstream.answer options₁.strategy =
          filteredAnswer question upstream.answer options₂.strategy ∧
        unfitEDNS codec (c.operation transport environment₂ question message₂ options₂) upstream = false := by
  obtain ⟨question₁, _, _, rfl⟩ := beginExchange_ready hready
  have hsame : question₁ = question := by
    have hkey := hleaves.key_eq
    unfold finishCacheKey at hkey
    split at hkey
    · exact congrArg DnsCacheKey.question (some.inj hkey)
    · cases hkey
  subst hsame
  obtain ⟨response, hload, hanswer⟩ := beginExchange_cached hquestion hcached
  rw [operation_finishExchange] at hload
  have hstored : response.content = (applyResponseOptions question₁ upstream options₁).1.content :=
    hleaves.load stored now hload
  set operation₂ := c.operation transport environment₂ question₁ message₂ options₂
  have hcontent : ∀ options : QueryOptions, (applyResponseOptions question₁ upstream options).1.content =
      Msg.content { upstream with answer := filteredAnswer question₁ upstream.answer options.strategy } :=
    fun options => Msg.content_normalizeTTL _ _
  obtain ⟨finish, hfinish, hfinishContent, hedns⟩ : ∃ finish : Msg,
      (c.finishExchange codec environment₂' operation₂ upstream finished).1 = adaptEDNS codec operation₂ finish ∧
      finish.content = (applyResponseOptions question₁ upstream options₂).1.content ∧
      codec.isEdns0 finish.extra = codec.isEdns0 upstream.extra :=
    ⟨_, rfl, rfl, codec.isEdns0_setTTL _ _⟩
  have hunfit : unfitEDNS codec operation₂ finish = unfitEDNS codec operation₂ upstream := by
    simp only [unfitEDNS, hedns]
  rw [hanswer, hstored, hfinish, ← hunfit, content_adaptEDNS_iff, hfinishContent, hcontent, hcontent]
  · exact and_congr_left' ⟨filteredAnswer_inj, fun h => congrArg (List.map (RR.setTTL 0)) h⟩
  · rw [hfinishContent, hcontent, hcontent]
    rfl

/-- The bytes of a message are the message; the last `OPT` record counts, with the version in its `TTL`. -/
def plainCodec : Codec Msg where
  pack := some
  unpack := some
  isEdns0 extra := (extra.filterMap RR.opt?).getLast?
  setEdns0 m udpSize ok := { m with extra := m.extra ++ [.opt ⟨[46], udpSize, if ok then 0x8000 else 0, []⟩] }
  version o := (o.ttl >>> 16).toUInt8
  dnssecOk o := o.ttl &&& 0x8000 == 0x8000
  unpack_pack := Eq.symm
  isEdns0_setTTL extra t := by
    rw [filterMap_map]
    congr 2
    funext rr
    cases rr <;> rfl
  isEdns0_eq_none h := by
    rw [filterMap_eq_nil_iff.mpr fun rr hrr => by simpa [RR.isOPT] using h rr hrr]
    rfl
  isEdns0_setEdns0 m udpSize ok := by
    refine ⟨⟨[46], udpSize, if ok then 0x8000 else 0, []⟩, by simp [RR.opt?], ?_⟩
    cases ok <;> simp only <;> decide

def memoryClient : Client Msg := ⟨false, false, 0, .zero, .memory fun _ => none⟩

def sampleQuestion : Question := ⟨[97, 46], 1, 1⟩

def plainOptions : QueryOptions := ⟨.asIS, false, false, none, .zero, false⟩

def sampleRequest (id : UInt16) (edns : Bool) : Msg :=
  ⟨id, 0x0100, 0, [sampleQuestion], [], [], if edns then [.opt ⟨[46], 1232, 0, []⟩] else []⟩

def sampleResponse : Msg :=
  ⟨7, 0x8180, 0, [sampleQuestion], [.record [97, 46] 1 300 (.other 1 [192, 0, 2, 1])], [], [.opt ⟨[46], 1232, 0, []⟩]⟩

def sampleOperation (id : UInt16) (edns : Bool) : Operation :=
  memoryClient.operation ⟨[115]⟩ 0 sampleQuestion (sampleRequest id edns) plainOptions

def filledClient : Client Msg := (memoryClient.finishExchange plainCodec 0 (sampleOperation 7 true) sampleResponse 0).2

/-- Both requests are made with EDNS: the second is answered as from upstream. -/
theorem cached_answer_iff_edns :
    ∃ answer, filledClient.beginExchange plainCodec ⟨[115]⟩ 0 (sampleRequest 8 true) plainOptions 5000000000 =
        .done answer true false ∧
      answer.content =
        (memoryClient.finishExchange plainCodec 0 (sampleOperation 8 true) sampleResponse 0).1.content := by
  have hcached : filledClient.beginExchange plainCodec ⟨[115]⟩ 0 (sampleRequest 8 true) plainOptions 5000000000 =
      .done { sampleResponse.normalizeTTL 295 with id := 8 } true false := by decide +kernel
  refine ⟨_, hcached, (cached_answer_iff plainCodec memoryClient ⟨[115]⟩ 0 0 0 0 sampleQuestion (sampleRequest 7 true)
    (sampleRequest 8 true) plainOptions plainOptions (sampleOperation 7 true) sampleResponse _ 0 0 5000000000 0
    (by decide +kernel) rfl ⟨by decide +kernel, .inl rfl, rfl, by decide +kernel, trivial⟩ hcached).mpr
      ⟨rfl, by decide +kernel⟩⟩

/-- The second request is made without EDNS: it is answered with the `OPT` record of the first. -/
theorem cached_answer_keeps_edns :
    (sampleOperation 8 false).cacheKey = (sampleOperation 7 true).cacheKey ∧
      ∃ answer, filledClient.beginExchange plainCodec ⟨[115]⟩ 0 (sampleRequest 8 false) plainOptions 5000000000 =
          .done answer true false ∧
        answer.content ≠
          (memoryClient.finishExchange plainCodec 0 (sampleOperation 8 false) sampleResponse 0).1.content := by
  have hcached : filledClient.beginExchange plainCodec ⟨[115]⟩ 0 (sampleRequest 8 false) plainOptions 5000000000 =
      .done { sampleResponse.normalizeTTL 295 with id := 8 } true false := by decide +kernel
  exact ⟨by decide +kernel, _, hcached, by decide +kernel⟩

end SingBox.Cache
