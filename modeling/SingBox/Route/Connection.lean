import SingBox.Route.Outbound

/-!
# Routing a connection

What sniffing has read is put back in front of the connection: every buffer is the cache of a connection around
the one before. A connection is what it yields to whoever reads it.
-/
namespace SingBox.Route

open Lib.Strings

def StreamRead.bytes : StreamRead → Bytes
  | .piece bytes => bytes
  | _ => []

def PacketRead.packets : PacketRead → List (Bytes × Socksaddr)
  | .packet bytes destination => [(bytes, destination)]
  | .cancel _ arrived => arrived.toList
  | _ => []

/-- What a stream still yields. -/
def Input.bytes : Input → Bytes
  | .stream reads => reads.flatMap StreamRead.bytes
  | .packets _ => []

/-- What a packet connection still yields. -/
def Input.datagrams : Input → List (Bytes × Socksaddr)
  | .stream _ => []
  | .packets reads => reads.flatMap PacketRead.packets

def newCachedConn (conn : Bytes) (buffer : Buffer) : Bytes := buffer.bytes ++ conn

def PacketBuffer.datagram (b : PacketBuffer) : Bytes × Socksaddr := (b.bytes, b.destination)

def newCachedPacketConn (conn : List (Bytes × Socksaddr)) (buffer : PacketBuffer) : List (Bytes × Socksaddr) :=
  buffer.datagram :: conn

def Held.releaseMulti (h : Held) : Held :=
  { h with buffers := [], released := h.released ++ h.buffers.map Buffer.id }

def Held.releaseMultiPacketBuffer (h : Held) : Held :=
  { h with packetBuffers := [], released := h.released ++ h.packetBuffers.map fun b => b.id }

def Host.addr : Host → Option Addr
  | .ip addr => some addr
  | _ => none

/-- `rewriteReadDestination` of the connection that a FakeIP destination is put behind. -/
def rewriteReadDestination (origin destination : Socksaddr) (p : Bytes × Socksaddr) : Bytes × Socksaddr :=
  if p.2.host.addr = origin.host.addr then (p.1, ⟨destination.host, p.2.port⟩) else p

variable {κ ρ : Type}

/-- What the outbound sees of a datagram. -/
def Metadata.reads (m : Metadata κ ρ) (p : Bytes × Socksaddr) : Bytes × Socksaddr :=
  if m.fakeIP then rewriteReadDestination m.originDestination m.destination p else p

/-- How a connection is left: with an outbound, with the DNS hijack, closed, or with an error. `α` is what a connection
yields. -/
inductive Routed (κ ρ α : Type) where
  | outbound (chain : List Outbound) (metadata : Metadata κ ρ) (conn : α)
  | hijackDNS (conn : α)
  | closed (held : Held)
  | failed (error : String) (held : Held)

/-- `routeConnection` behind `matchRule`. -/
def Matched.connection (outbounds : Outbounds) (r : Matched κ ρ) : Routed κ ρ Bytes :=
  match r.error with
  | some e => .failed e r.held.releaseMulti
  | none =>
    match r.selected with
    | some (.reject method _) =>
      .failed (if method = .reply then "reject method `reply` is not supported for TCP connections" else "rejected")
        r.held.releaseMulti
    | some .hijackDNS => .hijackDNS (r.held.buffers.foldl newCachedConn r.input.bytes)
    | selected =>
      match (selectedOutbound outbounds selected).bind (resolveOutbound .tcp) with
      | .error e => .failed e r.held.releaseMulti
      | .ok chain => .outbound chain r.metadata (r.held.buffers.foldl newCachedConn r.input.bytes)

/-- `routeConnection`, from `matchRule` on. -/
def routeConnection (env : Env κ ρ) (outbounds : Outbounds) (store : FakeIPStore) (rules : List (Rule κ ρ))
    (m : Metadata κ ρ) (reads : List StreamRead) : Routed κ ρ Bytes :=
  (matchRule env store rules { m with network := .tcp } (.stream reads)).connection outbounds

/-- How the DNS hijack of a packet connection goes: the handshake fails, the connection belongs to a NAT table, or its
packets are served until it ends. An error that only says that the connection is closed, or that is logged
elsewhere, is none. -/
inductive HijackRun where
  | refused (error : Option String)
  | nat
  | served (unpack : Bytes → Option String) (ended : Option String)

/-- The packets that are held are unpacked and released in this order, up to the first that is no DNS message. -/
def serveHeld (unpack : Bytes → Option String) : List PacketBuffer → List Nat × Option String
  | [] => ([], none)
  | b :: packets =>
    match unpack b.bytes with
    | some e => ([b.id], some e)
    | none => (b.id :: (serveHeld unpack packets).1, (serveHeld unpack packets).2)

/-- `hijackDNSPacket`. `NewDNSPacketConnection` reverses the packets it is given. -/
def hijackDNSPacket (run : HijackRun) (held : Held) (conn : List (Bytes × Socksaddr)) :
    Routed κ ρ (List (Bytes × Socksaddr)) :=
  match run with
  | .refused none => .closed held.releaseMultiPacketBuffer
  | .refused (some e) =>
    .failed s!"process DNS packet: report handshake success: {e}" held.releaseMultiPacketBuffer
  | .nat => .hijackDNS (held.packetBuffers.map PacketBuffer.datagram ++ conn)
  | .served unpack ended =>
    let r := serveHeld unpack held.packetBuffers.reverse
    match r.2.or ended with
    | some e =>
      .failed s!"process DNS packet: {e}" { held with packetBuffers := [], released := held.released ++ r.1 }
    | none => .hijackDNS (held.packetBuffers.reverse.map PacketBuffer.datagram ++ conn)

/-- `routePacketConnection` behind `matchRule`. -/
def Matched.packetConnection (outbounds : Outbounds) (hijack : HijackRun) (r : Matched κ ρ) :
    Routed κ ρ (List (Bytes × Socksaddr)) :=
  match r.error with
  | some e => .failed e r.held.releaseMultiPacketBuffer
  | none =>
    match r.selected with
    | some (.reject method _) =>
      .failed (if method = .reply then "reject method `reply` is not supported for UDP connections" else "rejected")
        r.held.releaseMultiPacketBuffer
    | some .hijackDNS => hijackDNSPacket hijack r.held r.input.datagrams
    | selected =>
      match (selectedOutbound outbounds selected).bind (resolveOutbound .udp) with
      | .error e => .failed e r.held.releaseMultiPacketBuffer
      | .ok chain =>
        .outbound chain r.metadata
          ((r.held.packetBuffers.foldl newCachedPacketConn r.input.datagrams).map r.metadata.reads)

/-- `routePacketConnection`, from `matchRule` on. -/
def routePacketConnection (env : Env κ ρ) (outbounds : Outbounds) (hijack : HijackRun) (store : FakeIPStore)
    (rules : List (Rule κ ρ)) (m : Metadata κ ρ) (reads : List PacketRead) : Routed κ ρ (List (Bytes × Socksaddr)) :=
  (matchRule env store rules { m with network := .udp } (.packets reads)).packetConnection outbounds hijack

end SingBox.Route
