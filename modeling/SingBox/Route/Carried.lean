import SingBox.Route.Buffers

/-!
# What a routed connection carries

The buffers that sniffing has filled become caches around the connection, the first innermost. Whoever reads the
connection gets what the client has sent if sniffing has filled one at most.
-/
namespace SingBox.Route

open Lib.Strings List PacketBuffer

variable {κ ρ : Type} {env : Env κ ρ}

/-- Every buffer that was filled is released, and once. -/
def Held.ReleasedOnce (h : Held) : Prop := ∀ id < h.filled, h.released.count id = 1

/-- A connection that yields `sent` to whom it is handed, or else an error behind which all buffers are released. -/
def Routed.Carries {α : Type} (sent : Metadata κ ρ → α) (raw : α) : Routed κ ρ α → Prop
  | .outbound _ m conn => conn = sent m
  | .hijackDNS conn => conn = raw
  | .closed _ => True
  | .failed _ held => held.ReleasedOnce

/-- Sniffing does not change what the connection carries. -/
def Unchanged (env : Env κ ρ) (outbounds : Outbounds) (hijack : HijackRun) (store : FakeIPStore)
    (rules : List (Rule κ ρ)) (m : Metadata κ ρ) : Input → Prop
  | .stream reads => (routeConnection env outbounds store rules m reads).Carries
      (fun _ => (Input.stream reads).bytes) (Input.stream reads).bytes
  | .packets reads => (routePacketConnection env outbounds hijack store rules m reads).Carries
      (fun m => (Input.packets reads).datagrams.map m.reads) (Input.packets reads).datagrams

variable {held : Held} {flow : Flow κ ρ}

theorem releasedOnce_range (hreleased : held.released = List.range held.filled) : held.ReleasedOnce := by
  intro id hid
  rw [hreleased, nodup_range.count, if_pos (mem_range.mpr hid)]

theorem Held.One.releaseMulti (hone : held.One true) :
    held.releaseMulti.ReleasedOnce ∧ held.release.releaseMulti.ReleasedOnce := by
  rcases hone with rfl | ⟨_, bytes, rfl⟩ | ⟨hstream, _⟩
  · exact ⟨releasedOnce_range rfl, releasedOnce_range rfl⟩
  · exact ⟨releasedOnce_range rfl, releasedOnce_range rfl⟩
  · cases hstream

theorem Held.One.releaseMultiPacketBuffer (hone : held.One false) :
    held.releaseMultiPacketBuffer.ReleasedOnce ∧ held.release.releaseMultiPacketBuffer.ReleasedOnce := by
  rcases hone with rfl | ⟨hstream, _⟩ | ⟨_, bytes, destination, rfl⟩
  · exact ⟨releasedOnce_range rfl, releasedOnce_range rfl⟩
  · cases hstream
  · exact ⟨releasedOnce_range rfl, releasedOnce_range rfl⟩

/-- What is held at the end of `matchRule` is what the walk has held; a connection that is refused has released it. -/
theorem Flow.matched_cases (flow : Flow κ ρ) :
    (flow.matched.error ≠ none ∧
      (flow.matched.held = flow.state.held ∨ flow.matched.held = flow.state.held.release)) ∨
    (flow.matched.held = flow.state.held ∧ flow.matched.input = flow.state.input) := by
  cases flow with
  | fail e s => exact .inl ⟨Option.some_ne_none e, .inl rfl⟩
  | next s | select _ s => cases hs : s.missingFakeIP <;> simp [Flow.matched, Flow.state, hs]

theorem Flow.matched_held (flow : Flow κ ρ) :
    flow.matched.held = flow.state.held ∨ flow.matched.held = flow.state.held.release := by
  rcases flow.matched_cases with ⟨_, hheld⟩ | ⟨hheld, _⟩
  · exact hheld
  · exact .inl hheld

theorem Flow.matched_input (herror : flow.matched.error = none) :
    flow.matched.held = flow.state.held ∧ flow.matched.input = flow.state.input :=
  flow.matched_cases.resolve_left fun hfailed => hfailed.1 herror

/-! ## What is handed over, and what is released -/

theorem Matched.connection_cases (outbounds : Outbounds) (r : Matched κ ρ) :
    (∃ e, r.connection outbounds = .failed e r.held.releaseMulti) ∨
    (r.error = none ∧
      ((∃ chain, r.connection outbounds =
          .outbound chain r.metadata (r.held.buffers.foldl newCachedConn r.input.bytes)) ∨
        r.connection outbounds = .hijackDNS (r.held.buffers.foldl newCachedConn r.input.bytes))) := by
  unfold Matched.connection
  split
  · exact .inl ⟨_, rfl⟩
  next herror =>
    split
    · exact .inl ⟨_, rfl⟩
    · exact .inr ⟨herror, .inr rfl⟩
    · split
      · exact .inl ⟨_, rfl⟩
      · exact .inr ⟨herror, .inl ⟨_, rfl⟩⟩

theorem Matched.packetConnection_cases (outbounds : Outbounds) (hijack : HijackRun) (r : Matched κ ρ) :
    (∃ e, r.packetConnection outbounds hijack = .failed e r.held.releaseMultiPacketBuffer) ∨
    (r.error = none ∧
      ((∃ chain, r.packetConnection outbounds hijack = .outbound chain r.metadata
          ((r.held.packetBuffers.foldl newCachedPacketConn r.input.datagrams).map r.metadata.reads)) ∨
        r.packetConnection outbounds hijack = hijackDNSPacket hijack r.held r.input.datagrams)) := by
  unfold Matched.packetConnection
  split
  · exact .inl ⟨_, rfl⟩
  next herror =>
    split
    · exact .inl ⟨_, rfl⟩
    · exact .inr ⟨herror, .inr rfl⟩
    · split
      · exact .inl ⟨_, rfl⟩
      · exact .inr ⟨herror, .inl ⟨_, rfl⟩⟩

theorem WalkState.Holds.carries {reads : List StreamRead} (h : flow.state.Holds (.stream reads))
    (outbounds : Outbounds) : (flow.matched.connection outbounds).Carries (fun _ => (Input.stream reads).bytes)
      (Input.stream reads).bytes := by
  rcases flow.matched.connection_cases outbounds with ⟨e, he⟩ | ⟨herror, hhanded⟩
  · rw [he]
    rcases flow.matched_held with hheld | hheld <;> rw [hheld]
    · exact (Held.One.releaseMulti h.one).1
    · exact (Held.One.releaseMulti h.one).2
  · obtain ⟨hheld, hinput⟩ := Flow.matched_input herror
    have horder : flow.matched.held.buffers.foldl newCachedConn flow.matched.input.bytes =
        (Input.stream reads).bytes := by
      rw [hheld, hinput, ← h.bytes]
      rcases h.one with hone | ⟨_, bytes, hone⟩ | ⟨_, _, _, hone⟩ <;> simp [hone, Held.empty, newCachedConn]
    rcases hhanded with ⟨chain, hchain⟩ | hhijack
    · rw [hchain]
      exact horder
    · rw [hhijack]
      exact horder

section
variable {reads : List PacketRead} (h : flow.state.Holds (.packets reads))
include h

theorem WalkState.Holds.hijack_carries (hijack : HijackRun) (herror : flow.matched.error = none)
    (sent : Metadata κ ρ → List (Bytes × Socksaddr)) :
    (hijackDNSPacket hijack flow.matched.held flow.matched.input.datagrams).Carries sent
      (Input.packets reads).datagrams := by
  obtain ⟨hheld, hinput⟩ := Flow.matched_input herror
  have hreleased := (Held.One.releaseMultiPacketBuffer h.one).1
  rw [hheld, hinput, ← h.datagrams]
  cases hijack with
  | refused e =>
    cases e with
    | none => trivial
    | some e => exact hreleased
  | nat => rfl
  | served unpack ended =>
    -- one packet is released whether or not it is a DNS message
    rcases h.one with hone | ⟨hstream, _⟩ | ⟨_, bytes, destination, hone⟩
    · rw [hone]
      cases ended with
      | none => rfl
      | some e => exact releasedOnce_range rfl
    · cases hstream
    · rw [hone]
      cases hunpack : unpack bytes with
      | some e =>
        simp only [hijackDNSPacket, serveHeld, List.reverse_singleton, hunpack, Option.some_or]
        exact releasedOnce_range rfl
      | none =>
        simp only [hijackDNSPacket, serveHeld, List.reverse_singleton, hunpack, Option.none_or]
        cases ended with
        | none => rfl
        | some e => exact releasedOnce_range rfl

theorem WalkState.Holds.packets_carry (outbounds : Outbounds) (hijack : HijackRun) :
    (flow.matched.packetConnection outbounds hijack).Carries (fun m => (Input.packets reads).datagrams.map m.reads)
      (Input.packets reads).datagrams := by
  rcases flow.matched.packetConnection_cases outbounds hijack with ⟨e, he⟩ | ⟨herror, ⟨chain, hchain⟩ | hhijack⟩
  · rw [he]
    rcases flow.matched_held with hheld | hheld <;> rw [hheld]
    · exact (Held.One.releaseMultiPacketBuffer h.one).1
    · exact (Held.One.releaseMultiPacketBuffer h.one).2
  · obtain ⟨hheld, hinput⟩ := Flow.matched_input herror
    rw [hchain, hheld, hinput, ← h.datagrams]
    rcases h.one with hone | ⟨_, _, hone⟩ | ⟨_, _, _, hone⟩ <;>
      simp [hone, Held.empty, newCachedPacketConn, Routed.Carries]
  · rw [hhijack]
    exact h.hijack_carries hijack herror _

end

/-- The walk of `matchRule`, as it begins on a connection. -/
def WalkState.begin (env : Env κ ρ) (store : FakeIPStore) (m : Metadata κ ρ) : Input → WalkState κ ρ
  | .stream reads => .start env store { m with network := .tcp } (.stream reads)
  | .packets reads => .start env store { m with network := .udp } (.packets reads)

/-- Sniffers that fail on a first piece, ask for more after a first packet, and are content with what follows. -/
def pieceEnv : Env Unit Unit where
  isDomainName _ := false
  isDomainName_empty := rfl
  lookupReverseMapping _ := none
  hasTransport _ := false
  lookup _ _ _ := .ok []
  defaultStreamSniffers := [fun _ _ _ => (⟨none, none, none, none⟩, some ⟨false, ["unknown"]⟩)]
  defaultPacketSniffers := [fun _ _ _ => (⟨none, none, none, none⟩, some ⟨true, ["need more data"]⟩)]
  quicClientHello := fun _ _ _ => (⟨some "quic", none, none, none⟩, none)

def pieceMetadata : Metadata Unit Unit := .new .tcp ⟨.ip (.v4 1), 443⟩ ()

/-- A rule for every connection that sniffs for the named protocols. -/
def sniffFor (names : List String) : Rule Unit Unit := ⟨fun _ => true, .sniff ⟨names, [], [], 300, false⟩⟩

def directOnly : Outbounds where
  lookup _ := none
  default := .plain "direct" [.tcp, .udp] none
  defaultOutbound := .plain "direct" [.tcp, .udp] none

def noFakeIP : FakeIPStore where
  contains _ := false
  lookup _ := none

end SingBox.Route
