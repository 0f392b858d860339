import SingBox.Route.Metadata

/-!
# Sniffing

A sniff rule reads ahead of the connection, piece after piece of a stream or packet after packet, until its
sniffers make something of what they have seen. What was read is held in buffers.
-/
namespace SingBox.Route

open Lib.Strings

variable {κ ρ : Type} (env : Env κ ρ)

/-- `RuleActionSniff`. -/
structure SniffAction (κ : Type) where
  snifferNames : List String
  streamSniffers : List (Sniffer κ)
  packetSniffers : List (Sniffer κ)
  timeout : Int
  overrideDestination : Bool

/-- The outcome of one read of a stream: what arrived, an error, or a deadline that cannot be set. -/
inductive StreamRead where
  | piece (bytes : Bytes)
  | fail (cause : String)
  | noDeadline (cause : String)
  deriving DecidableEq

/-- The outcome of one read of a packet. The context may end while a packet arrives. -/
inductive PacketRead where
  | packet (bytes : Bytes) (destination : Socksaddr)
  | timeout (cause : String)
  | fail (cause : String)
  | cancel (cause : String) (arrived : Option (Bytes × Socksaddr))
  deriving DecidableEq

/-- The connection, as the reads to come. -/
inductive Input where
  | stream (reads : List StreamRead)
  | packets (reads : List PacketRead)
  deriving DecidableEq

def SniffWrites.apply (w : SniffWrites κ) (m : Metadata κ ρ) : Metadata κ ρ :=
  { m with
    protocol := w.protocol.getD m.protocol
    domain := w.domain.getD m.domain
    client := w.client.getD m.client
    sniffContext := w.sniffContext.getD m.sniffContext }

/-- What sniffers have made of the metadata; `found` is the name they have set. -/
structure Peeked (κ ρ : Type) where
  metadata : Metadata κ ρ
  found : Option String
  error : Option SniffError

/-- `E.Errors`. -/
def SniffError.append (e : Option SniffError) (e' : SniffError) : SniffError :=
  match e with
  | none => e'
  | some e => ⟨e.needMoreData || e'.needMoreData, e.causes ++ e'.causes⟩

/-- The sniffers in their order, up to the first that succeeds. -/
def runSniffers (data : Bytes) : List (Sniffer κ) → Peeked κ ρ → Peeked κ ρ
  | [], p => p
  | sniffer :: sniffers, p =>
    match sniffer p.metadata.client p.metadata.sniffContext data with
    | (w, none) => ⟨w.apply p.metadata, w.domain.or p.found, none⟩
    | (w, some e) =>
      runSniffers data sniffers ⟨w.apply p.metadata, w.domain.or p.found, some (SniffError.append p.error e)⟩

def needMoreData (e : Option SniffError) : Bool := (e.map SniffError.needMoreData).getD false

/-- A read failed: the sniffers have had their say unless it was the first. -/
def readFailed (last : Option SniffError) (cause : String) : Option SniffError :=
  some (last.getD ⟨false, [s!"read payload: {cause}"]⟩)

/-- `PeekStream` behind `earlier`, with what is in the buffer already: what the sniffers make of it, the buffer,
and the reads left. -/
def peekStream (sniffers : List (Sniffer κ)) (earlier : Bytes) :
    List StreamRead → Bytes → Peeked κ ρ → Peeked κ ρ × Bytes × List StreamRead
  | [], buffer, p => ({ p with error := readFailed p.error "EOF" }, buffer, [])
  | .fail cause :: reads, buffer, p => ({ p with error := readFailed p.error cause }, buffer, reads)
  | .noDeadline cause :: reads, buffer, p =>
    ({ p with error := some ⟨false, [s!"set read deadline: {cause}"]⟩ }, buffer, reads)
  | .piece bytes :: reads, buffer, p =>
    let q := runSniffers (earlier ++ (buffer ++ bytes)) sniffers { p with error := none }
    if needMoreData q.error then peekStream sniffers earlier reads (buffer ++ bytes) q
    else (q, buffer ++ bytes, reads)

/-- `sniff.Skip`: the ports of protocols in which the server speaks first. -/
def skipPort (port : UInt16) : Bool := port ∈ [25, 465, 587, 143, 993, 110, 995]

/-- What a sniff action leaves behind: the stream read, the packets read, and a packet that arrived when the
context was over. -/
structure SniffOutcome (κ ρ : Type) where
  peeked : Peeked κ ρ
  newBytes : Bytes
  newPackets : List (Bytes × Socksaddr)
  lost : Option (Bytes × Socksaddr)
  fatal : Option String
  input : Input

/-- The rule has failed on this connection before. -/
def sniffedBefore (action : SniffAction κ) (m : Metadata κ ρ) : Bool :=
  m.snifferNames = action.snifferNames && m.sniffError.isSome && !needMoreData m.sniffError

def record (action : SniffAction κ) (p : Peeked κ ρ) : Peeked κ ρ :=
  { p with metadata := { p.metadata with snifferNames := action.snifferNames, sniffError := p.error } }

/-- A stream, of which `earlier` has been read. -/
def sniffStream (action : SniffAction κ) (m : Metadata κ ρ) (earlier : Bytes) (reads : List StreamRead) :
    SniffOutcome κ ρ :=
  let sniffers := if action.streamSniffers ≠ [] then action.streamSniffers else env.defaultStreamSniffers
  let r := peekStream sniffers earlier reads [] ⟨m, none, none⟩
  ⟨record action r.1, r.2.1, [], none, none, .stream r.2.2⟩

/-- One packet, by the sniffers of the rule or, behind the first packet of a QUIC client hello, by that of QUIC. -/
def peekPacket (action : SniffAction κ) (p : Peeked κ ρ) (bytes : Bytes) : Peeked κ ρ :=
  let quicMoreData := p.metadata.snifferNames = action.snifferNames ∧ needMoreData p.metadata.sniffError = true
  let sniffers :=
    if quicMoreData then [env.quicClientHello]
    else if action.packetSniffers ≠ [] then action.packetSniffers else env.defaultPacketSniffers
  record action (runSniffers bytes sniffers { p with error := none })

/-- The packets that are held already, up to the first that does not need more. -/
def peekHeld (action : SniffAction κ) : List Bytes → Peeked κ ρ → Bool × Peeked κ ρ
  | [], p => (false, p)
  | bytes :: held, p =>
    let q := peekPacket env action p bytes
    if needMoreData q.error then peekHeld action held q else (true, q)

def maxSniffPackets : Nat := 16

/-- The sniffers have given up, for a reason of the router. -/
def Peeked.failed (p : Peeked κ ρ) (cause : String) : Peeked κ ρ := { p with error := some ⟨false, [cause]⟩ }

/-- The loop that reads packets; `count` are held. -/
def readPackets (action : SniffAction κ) (count : Nat) :
    List PacketRead → List (Bytes × Socksaddr) → Peeked κ ρ → SniffOutcome κ ρ
  | reads, new, p =>
    if count + new.length ≥ maxSniffPackets then
      let q := p.failed s!"no sniff result in {maxSniffPackets} packets"
      ⟨{ q with metadata := { q.metadata with sniffError := q.error } }, [], new, none, none, .packets reads⟩
    else
      match reads with
      | [] => ⟨p.failed "timeout", [], new, none, none, .packets []⟩
      | .timeout cause :: reads => ⟨p.failed cause, [], new, none, none, .packets reads⟩
      | .fail cause :: reads => ⟨p.failed cause, [], new, none, some cause, .packets reads⟩
      | .cancel cause arrived :: reads => ⟨p.failed cause, [], new, arrived, some cause, .packets reads⟩
      | .packet bytes destination :: reads =>
        let q := peekPacket env action p bytes
        if needMoreData q.error then readPackets action count reads (new ++ [(bytes, destination)]) q
        else ⟨q, [], new ++ [(bytes, destination)], none, none, .packets reads⟩

/-- Packets, of which `held` have been read. -/
def sniffPackets (action : SniffAction κ) (m : Metadata κ ρ) (held : List Bytes) (reads : List PacketRead) :
    SniffOutcome κ ρ :=
  match peekHeld env action held ⟨m, none, none⟩ with
  | (true, p) => ⟨p, [], [], none, none, .packets reads⟩
  | (false, p) => readPackets env action held.length reads [] p

/-- The sniffers are not asked. -/
def sniffNothing (m : Metadata κ ρ) (input : Input) : SniffOutcome κ ρ :=
  ⟨(⟨m, none, none⟩ : Peeked κ ρ).failed "sniff skipped", [], [], none, none, input⟩

/-- A rule that does not ask its sniffers. -/
def SniffAction.Skips (a : SniffAction κ) (m : Metadata κ ρ) (input : Input) : Prop :=
  skipPort m.destination.port ∨ m.protocol ≠ "" ∨ sniffedBefore a m = true ∨
    match input with
    | .stream _ => a.streamSniffers = [] ∧ a.packetSniffers ≠ []
    | .packets _ => a.packetSniffers = [] ∧ a.streamSniffers ≠ []

/-- What a sniff action reads, and what its sniffers say. -/
def sniffAhead (action : SniffAction κ) (m : Metadata κ ρ) (earlier : Bytes) (held : List Bytes) (input : Input) :
    SniffOutcome κ ρ :=
  if skipPort m.destination.port ∨ m.protocol ≠ "" then sniffNothing m input
  else
    match input with
    | .stream reads =>
      if action.streamSniffers = [] ∧ action.packetSniffers ≠ [] ∨ sniffedBefore action m = true then
        sniffNothing m input
      else sniffStream env action m earlier reads
    | .packets reads =>
      if action.packetSniffers = [] ∧ action.streamSniffers ≠ [] ∨ sniffedBefore action m = true then
        sniffNothing m input
      else sniffPackets env action m held reads

variable {env} in
theorem sniffAhead_skips {a : SniffAction κ} {m : Metadata κ ρ} {input : Input} (h : a.Skips m input) (earlier : Bytes)
    (held : List Bytes) : sniffAhead env a m earlier held input = sniffNothing m input := by
  by_cases hfirst : skipPort m.destination.port ∨ m.protocol ≠ ""
  · unfold sniffAhead
    rw [if_pos hfirst]
  · have hrest := (or_assoc.mpr h).resolve_left hfirst
    cases input <;> simp only [sniffAhead, if_neg hfirst] <;> rw [if_pos hrest.symm]

/-- The sniffed name replaces the destination, if the rule says so. -/
def overrideSniffed (action : SniffAction κ) (p : Peeked κ ρ) : Metadata κ ρ :=
  if p.error = none ∧ action.overrideDestination = true ∧ env.isDomainName p.metadata.domain = true then
    { p.metadata with destination := { host := .name p.metadata.domain, port := p.metadata.destination.port } }
  else p.metadata

def actionSniff (action : SniffAction κ) (m : Metadata κ ρ) (earlier : Bytes) (held : List Bytes) (input : Input) :
    SniffOutcome κ ρ :=
  let outcome := sniffAhead env action m earlier held input
  { outcome with peeked := { outcome.peeked with metadata := overrideSniffed env action outcome.peeked } }

end SingBox.Route
