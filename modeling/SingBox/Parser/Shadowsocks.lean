import SingBox.Lib.Fold
import SingBox.Parser.Collector
import SingBox.Parser.Plugin

/-!
# Shadowsocks servers of a subscription

A Shadowsocks server comes as a share link, with its parameters in a query, or as an entry of a SIP008
document. Both carry the name of a plugin and its options as the subscription wrote them.
-/
namespace SingBox.Parser

open SingBox.Lib.Strings List

/-- The parts of the `url.URL` of a link that are read. -/
structure LinkURL where
  username : Bytes
  password : Bytes
  host : Bytes
  fragment : Bytes
  rawQuery : Bytes
  deriving DecidableEq

def isDigit (b : UInt8) : Bool := 48 ≤ b && b ≤ 57

/-- `splitHostPort` of `net/url`. -/
def splitHostPort (hostPort : Bytes) : Bytes × Bytes :=
  let (host, port) :=
    match cutLast 58 hostPort with
    | some (host, port) => if port.all isDigit then (host, port) else (hostPort, [])
    | none => (hostPort, [])
  if host.head? = some 91 ∧ host.getLast? = some 93 then ((host.drop 1).dropLast, port) else (host, port)

def LinkURL.hostname (linkURL : LinkURL) : Bytes := (splitHostPort linkURL.host).1

def LinkURL.port (linkURL : LinkURL) : Bytes := (splitHostPort linkURL.host).2

/-- The number of a text of digits. -/
def decimal (text : Bytes) : Nat := text.foldl (fun n b => n * 10 + (b - 48).toNat) 0

def serverAddress (linkURL : LinkURL) : Except Bytes Bytes :=
  if linkURL.hostname = [] then .error (ascii "missing server") else .ok linkURL.hostname

def serverPort (linkURL : LinkURL) (fallback : UInt16) : Except Bytes UInt16 :=
  let text := linkURL.port
  if text = [] then
    if fallback = 0 then .error (ascii "missing server port") else .ok fallback
  else if 65536 ≤ decimal text ∨ decimal text = 0 then .error (ascii "invalid server port: " ++ text)
  else .ok (UInt16.ofNat (decimal text))

/-- The parameters of a link, in their order. -/
abbrev Query := List (Bytes × Bytes)

def linkQuery (linkURL : LinkURL) : Query :=
  (linkURL.rawQuery.splitOn 38).filterMap fun pair =>
    let (rawName, rawValue, _) := cut 61 pair
    match queryUnescape rawName, queryUnescape rawValue with
    | some name, some value =>
      if name = [] then none else some (trimPrefix (ascii "amp;") (toLower name), value)
    | _, _ => none

/-- `url.Values.Get`. -/
def Query.value (q : Query) (name : Bytes) : Bytes := ((q.find? fun pair => pair.1 = name).map Prod.snd).getD []

def Query.get (q : Query) : List Bytes → Bytes
  | [] => []
  | name :: names =>
    let value := trimSpace (q.value (toLower name))
    if value ≠ [] then value else q.get names

def Query.flag (q : Query) (names : List Bytes) : Bool :=
  names.any fun name =>
    match q.find? fun pair => pair.1 = toLower name with
    | none => false
    | some pair => toLower (trimSpace pair.2) ∈ [[], ascii "1", ascii "true", ascii "yes", ascii "on"]

def linkEndpoint (linkURL : LinkURL) (fallbackPort : UInt16) : Except Bytes (Bytes × UInt16 × Query) :=
  match serverAddress linkURL with
  | .error e => .error e
  | .ok server =>
    match serverPort linkURL fallbackPort with
    | .error e => .error e
    | .ok port => .ok (server, port, linkQuery linkURL)

def decodeBase64 (content : Bytes) : Option Bytes :=
  let stripped := (trimSpace content).filter fun b => b ∉ [13, 10, 9]
  let stripped := (stripped.reverse.dropWhile (· == 61)).reverse
  if stripped = [] then none
  else
    [(standard, stripped), (urlSafe, stripped),
      (standard, stripped.map fun b => if b = 32 then 43 else b),
      (urlSafe, stripped.map fun b => if b = 32 then 45 else b)].findSome? fun candidate =>
        decodeBase64Raw candidate.1 candidate.2

/-- The credentials, the endpoint, and whether the credentials were encoded. -/
def shadowsocksParts (payload : Bytes) : Except Bytes (Bytes × Bytes × Bool) :=
  let (credentials, endpoint, hasEndpoint) := cut 64 payload
  if !hasEndpoint then
    match (decodeBase64 payload).bind (cutLast 64) with
    | none => .error (ascii "invalid Shadowsocks link")
    | some (credentials, endpoint) => .ok (credentials, endpoint, true)
  else
    match decodeBase64 credentials with
    | some decoded => .ok (decoded, endpoint, true)
    | none => .ok (credentials, endpoint, false)

def shadowsocksLinkURL (body : Bytes) : Except Bytes LinkURL :=
  let (body, fragment, _) := cut 35 body
  let (payload, rawQuery, hasQuery) := cut 63 body
  match shadowsocksParts payload with
  | .error e => .error e
  | .ok (credentials, endpoint, encoded) =>
    let tail := endpoint.dropWhile fun b => b ∉ [47, 63, 35]
    let host := endpoint.takeWhile fun b => b ∉ [47, 63, 35]
    -- an encoded payload may have the query in it
    let rawQuery :=
      if hasQuery then rawQuery
      else
        match trimPrefix (ascii "/") tail with
        | 63 :: inner => inner
        | _ => []
    let (method, password, hasPassword) := cut 58 credentials
    if !hasPassword then .error (ascii "invalid Shadowsocks credentials")
    else
      let linkURL : LinkURL :=
        { username := if encoded then method else (pathUnescape method).getD []
          password := if encoded then password else (pathUnescape password).getD []
          host := host
          fragment := (pathUnescape fragment).getD fragment
          rawQuery := rawQuery }
      if linkURL.hostname = [] then .error (ascii "missing server") else .ok linkURL

structure ShadowsocksOptions where
  server : Bytes
  serverPort : UInt16
  method : Bytes
  password : Bytes
  plugin : Bytes
  pluginOptions : Bytes
  udpOverTCP : Bool
  deriving DecidableEq

structure Outbound where
  tag : Bytes
  options : ShadowsocksOptions
  deriving DecidableEq

/-- The name and the options of the plugin of a link, unless they name a file of this router. -/
def linkPlugin (q : Query) : Except Bytes (Bytes × Bytes) :=
  let plugin := q.get [ascii "plugin"]
  if plugin = [] then .ok ([], [])
  else
    let (name, arguments, _) := cut 59 plugin
    if pluginNamesLocalFile arguments then
      .error (ascii "unsupported plugin option: cert names a file of this router")
    else .ok (name, arguments)

/-- `parseShadowsocksLink` up to the plugin: the URL of the link, its server and its query. -/
def shadowsocksLinkQuery (link : Bytes) : Except Bytes (LinkURL × Bytes × UInt16 × Query) :=
  match shadowsocksLinkURL (trimPrefix (ascii "ss://") link) with
  | .error e => .error e
  | .ok linkURL =>
    match linkEndpoint linkURL 0 with
    | .error e => .error e
    | .ok (server, port, q) =>
      let network := q.get [ascii "type", ascii "net"]
      let security := q.get [ascii "security"]
      if toLower network ∉ [[], ascii "tcp", ascii "raw", ascii "none"] then
        .error (ascii "unsupported transport of Xray for Shadowsocks: " ++ network)
      else if toLower security ∉ [[], ascii "none"] then
        .error (ascii "unsupported security of Xray for Shadowsocks: " ++ security)
      else .ok (linkURL, server, port, q)

def parseShadowsocksLink (link : Bytes) : Except Bytes Outbound :=
  match shadowsocksLinkQuery link with
  | .error e => .error e
  | .ok (linkURL, server, port, q) =>
    match linkPlugin q with
    | .error e => .error e
    | .ok (plugin, pluginOptions) =>
      .ok { tag := linkURL.fragment
            options := { server := server
                         serverPort := port
                         method := linkURL.username
                         password := linkURL.password
                         plugin := plugin
                         pluginOptions := pluginOptions
                         udpOverTCP := q.flag [ascii "udp-over-tcp"] || q.get [ascii "uot"] == ascii "1" } }

/-- An entry of a SIP008 document. -/
structure SIP008Server where
  remarks : Bytes
  server : Bytes
  serverPort : UInt16
  password : Bytes
  method : Bytes
  plugin : Bytes
  pluginOpts : Bytes
  deriving DecidableEq

/-- What `encoding/json` makes of a document and of its entries: the entries of `servers`, if there are any;
the remarks that were read of an entry, even if it is broken; and the entry. -/
structure SIP008Decoder (ρ : Type) where
  servers : Bytes → Option (List ρ)
  remarks : ρ → Bytes
  server : ρ → Except Bytes SIP008Server

section
variable {ρ : Type} (json : SIP008Decoder ρ)

def Collector.label (format : Bytes) (index : Nat) (name : Bytes) : Bytes :=
  format ++ ascii s!" server {index + 1}" ++ if name = [] then [] else ascii " (" ++ name ++ ascii ")"

def SIP008Server.outbound (server : SIP008Server) : Outbound where
  tag := server.remarks
  options :=
    { server := server.server
      serverPort := server.serverPort
      method := server.method
      password := server.password
      plugin := server.plugin
      pluginOptions := server.pluginOpts
      udpOverTCP := false }

def SIP008Server.Complete (server : SIP008Server) : Prop :=
  server.server ≠ [] ∧ server.serverPort ≠ 0 ∧ server.password ≠ [] ∧ server.method ≠ []

instance (server : SIP008Server) : Decidable server.Complete := by unfold SIP008Server.Complete; infer_instance

/-- The body of the loop over the entries. -/
def collectSIP008 (collector : Collector Bytes Outbound) (entry : ρ × Nat) : Collector Bytes Outbound :=
  let remarks := json.remarks entry.1
  let label := Collector.label (ascii "SIP008") entry.2 remarks
  let tag := if remarks = [] then none else some remarks
  match json.server entry.1 with
  | .error e => collector.skip tag label e
  | .ok server =>
    if server.Complete then collector.add server.outbound
    else collector.skip tag label (ascii "incomplete server")

/-- `ParseSIP008Subscription`; `none` is `ErrUnrecognized`. An imported server has no detour. -/
def parseSIP008Subscription (content : Bytes) : Option (Result Bytes Outbound) :=
  let trimmed := trimSpace content
  if trimmed.head? ≠ some 123 then none
  else
    (json.servers trimmed).map fun servers =>
      (servers.zipIdx.foldl (collectSIP008 json) Collector.new).result (fun _ => none) id

/-- The options in the plugin parameter of a link. -/
def Query.pluginArguments (q : Query) : Bytes := (cut 59 (q.get [ascii "plugin"])).2.1

theorem linkPlugin_cases (q : Query) : (∃ e, linkPlugin q = .error e ∧ pluginNamesLocalFile q.pluginArguments = true) ∨
    ∃ name, linkPlugin q = .ok (name, q.pluginArguments) ∧ pluginNamesLocalFile q.pluginArguments = false := by
  simp only [linkPlugin, Query.pluginArguments]
  split_ifs with hempty hcheck
  · rw [hempty]
    exact .inr ⟨[], rfl, by decide +kernel⟩
  · exact .inl ⟨_, rfl, hcheck⟩
  · exact .inr ⟨_, rfl, eq_false_of_ne_true hcheck⟩

/-- The options of an accepted link are those of its plugin parameter, and have passed the check. -/
theorem accepted_options {link options : Bytes} :
    (∃ o, parseShadowsocksLink link = .ok o ∧ o.options.pluginOptions = options) ↔
      ∃ parts, shadowsocksLinkQuery link = .ok parts ∧ parts.2.2.2.pluginArguments = options ∧
        pluginNamesLocalFile parts.2.2.2.pluginArguments = false := by
  unfold parseShadowsocksLink
  cases shadowsocksLinkQuery link with
  | error e => simp
  | ok parts =>
    obtain ⟨linkURL, server, port, q⟩ := parts
    rcases linkPlugin_cases q with ⟨e, hplugin, hcheck⟩ | ⟨name, hplugin, hcheck⟩ <;> simp [hplugin, hcheck]

theorem mem_foldl_collectSIP008 {entries : List (ρ × Nat)} {c : Collector Bytes Outbound} {o : Outbound} :
    o ∈ (entries.foldl (collectSIP008 json) c).outbounds ↔ o ∈ c.outbounds ∨
      ∃ entry ∈ entries, ∃ server, json.server entry.1 = .ok server ∧ server.Complete ∧ server.outbound = o := by
  induction entries generalizing c with
  | nil => simp
  | cons entry entries ih =>
    rw [foldl_cons, ih, exists_mem_cons_iff, ← or_assoc]
    refine or_congr_left ?_
    rw [collectSIP008]
    cases hs : json.server entry.1 with
    | error e => simp
    | ok server =>
      by_cases hc : server.Complete
      · simp [hc, eq_comm]
      · simp [hc]

/-- The imported servers are the complete entries. -/
theorem mem_parseSIP008Subscription {content : Bytes} {r : Result Bytes Outbound}
    (h : parseSIP008Subscription json content = some r) {o : Outbound} :
    o ∈ r.outbounds ↔ ∃ servers, json.servers (trimSpace content) = some servers ∧
      ∃ entry ∈ servers, ∃ server, json.server entry = .ok server ∧ server.Complete ∧ server.outbound = o := by
  simp only [parseSIP008Subscription] at h
  split_ifs at h
  obtain ⟨servers, hservers, rfl⟩ := Option.map_eq_some_iff.mp h
  simp only [Collector.result, map_id', mem_foldl_collectSIP008, Collector.new, hservers,
    Option.some.injEq, exists_eq_left', not_mem_nil, false_or]
  exact Lib.exists_mem_zipIdx servers fun entry =>
    ∃ server, json.server entry = .ok server ∧ server.Complete ∧ server.outbound = o

/-- No server that is imported from the text has a plugin option `cert`. -/
def ImportsNoCert (text : Bytes) : Prop :=
  (∀ o, parseShadowsocksLink text = .ok o → Lacks o.options.pluginOptions cert) ∧
    ∀ r, parseSIP008Subscription json text = some r → ∀ o ∈ r.outbounds, Lacks o.options.pluginOptions cert

/-- No option in the plugin parameter of the link reads `cert` by a backslash in its key, unless the link is
refused before. -/
def NoEscapedCert (text : Bytes) : Prop :=
  ∀ parts, shadowsocksLinkQuery text = .ok parts →
    let options := parts.2.2.2.pluginArguments
    pluginNamesLocalFile options = false →
      ∀ l, arguments options.length options = .ok l → ∀ a ∈ l, a.key = cert → 92 ∉ a.raw

/-- No complete entry of the document has an option `cert`. -/
def NoEntryCert (text : Bytes) : Prop :=
  (trimSpace text).head? = some 123 → ∀ servers, json.servers (trimSpace text) = some servers →
    ∀ entry ∈ servers, ∀ server, json.server entry = .ok server → server.Complete → Lacks server.pluginOpts cert

theorem link_lacks_cert_iff (text : Bytes) :
    (∀ o, parseShadowsocksLink text = .ok o → Lacks o.options.pluginOptions cert) ↔ NoEscapedCert text := by
  constructor
  · intro h parts hparts options hcheck l hl a ha hkey
    obtain ⟨o, ho, heq⟩ := accepted_options.mpr ⟨parts, hparts, rfl, hcheck⟩
    have hlacks := h o ho
    rw [heq] at hlacks
    exact absurd hkey (lacks_iff.mp hlacks l hl a ha)
  · intro h o ho
    obtain ⟨parts, hparts, heq, hcheck⟩ := accepted_options.mp ⟨o, ho, rfl⟩
    rw [← heq]
    refine lacks_iff.mpr fun l hl a ha hkey => ?_
    -- the check has let the link pass, so such a key has a backslash
    exact h parts hparts hcheck l hl a ha hkey (backslash_of_not_pluginNamesLocalFile hcheck hl ha hkey)

theorem entries_lack_cert_iff (text : Bytes) :
    (∀ r, parseSIP008Subscription json text = some r → ∀ o ∈ r.outbounds, Lacks o.options.pluginOptions cert) ↔
      NoEntryCert json text := by
  constructor
  · intro h hhead servers hservers entry hentry server hserver hcomplete
    have hr : parseSIP008Subscription json text =
        some ((servers.zipIdx.foldl (collectSIP008 json) Collector.new).result (fun _ => none) id) := by
      simp [parseSIP008Subscription, hhead, hservers]
    exact h _ hr server.outbound ((mem_parseSIP008Subscription json hr).mpr
      ⟨servers, hservers, entry, hentry, server, hserver, hcomplete, rfl⟩)
  · intro h r hr o ho
    obtain ⟨servers, hservers, entry, hentry, server, hserver, hcomplete, rfl⟩ :=
      (mem_parseSIP008Subscription json hr).mp ho
    have hhead : (trimSpace text).head? = some 123 := by
      by_contra hne
      simp [parseSIP008Subscription, hne] at hr
    exact h hhead servers hservers entry hentry server hserver hcomplete

/-- A share link is refused where it names `cert` as it is, a SIP008 document is not looked at. -/
theorem imports_no_cert_iff (text : Bytes) :
    ImportsNoCert json text ↔ NoEscapedCert text ∧ NoEntryCert json text :=
  and_congr (link_lacks_cert_iff text) (entries_lack_cert_iff json text)

def certLink : Bytes :=
  ascii "ss://YWVzLTEyOC1nY206cHc@example.test:443?plugin=v2ray-plugin;ce%5Crt=/etc/key"

def certLinkOutbound : Outbound where
  tag := []
  options :=
    { server := ascii "example.test"
      serverPort := 443
      method := ascii "aes-128-gcm"
      password := ascii "pw"
      plugin := ascii "v2ray-plugin"
      pluginOptions := ascii "ce\\rt=/etc/key"
      udpOverTCP := false }

def certDocument : Bytes :=
  ascii "\x7b\"servers\":[\x7b\"server\":\"example.test\",\"server_port\":443,\"password\":\"pw\"," ++
    ascii "\"method\":\"aes-128-gcm\",\"plugin\":\"v2ray-plugin\",\"plugin_opts\":\"cert=/etc/key\"\x7d]\x7d"

def certEntry : SIP008Server where
  remarks := []
  server := ascii "example.test"
  serverPort := 443
  password := ascii "pw"
  method := ascii "aes-128-gcm"
  plugin := ascii "v2ray-plugin"
  pluginOpts := ascii "cert=/etc/key"

/-- A backslash in the key passes the check of a link, and an entry of a document passes without one. -/
theorem plugin_is_handed_cert :
    (parseShadowsocksLink certLink = .ok certLinkOutbound ∧ ¬ Lacks certLinkOutbound.options.pluginOptions cert) ∧
      ∀ (ρ : Type) (json : SIP008Decoder ρ), ¬ ImportsNoCert json certLink ∧
        ∀ entry, json.servers certDocument = some [entry] → json.server entry = .ok certEntry →
          ¬ ImportsNoCert json certDocument := by
  have hparse : parseShadowsocksLink certLink = .ok certLinkOutbound := by decide +kernel
  have hlink : ¬ Lacks certLinkOutbound.options.pluginOptions cert :=
    not_lacks_of_lookup (v := [ascii "/etc/key"]) (by decide +kernel)
  have hopts : ¬ Lacks certEntry.pluginOpts cert :=
    not_lacks_of_lookup (v := [ascii "/etc/key"]) (by decide +kernel)
  have htrim : trimSpace certDocument = certDocument := by decide +kernel
  refine ⟨⟨hparse, hlink⟩, fun ρ json => ⟨fun h => hlink (h.1 _ hparse), fun entry hservers hentry h => hopts ?_⟩⟩
  exact ((entries_lack_cert_iff json certDocument).mp h.2) (by decide +kernel) [entry] (by rw [htrim, hservers])
    entry mem_cons_self certEntry hentry (by decide +kernel)

end
end SingBox.Parser
