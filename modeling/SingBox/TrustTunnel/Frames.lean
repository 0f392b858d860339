import SingBox.NetIP.Octets
import SingBox.Lib.Stream

/-!
# UDP frames in a stream

A datagram travels as a frame with its length, both endpoints and, from a client, the name of the
application. An endpoint is sixteen bytes and a port; an IPv4 address stands behind twelve zeros.
The reader keeps a scratch area for the length, the header, the name and what it discards.
-/
namespace SingBox.TrustTunnel

open Lib.Wire Lib.Stream NetIP

def frameLengthSize : Nat := 4
def frameAddressSize : Nat := 16
def frameEndpointSize : Nat := frameAddressSize + 2

def clientFrameHeaderSize : Nat := 2 * frameEndpointSize + 1
def serverFrameHeaderSize : Nat := 2 * frameEndpointSize

def maxPayloadSize : Nat := 65535
def maxAppNameSize : Nat := 255

def maxClientFrameSize : Nat := clientFrameHeaderSize + maxAppNameSize + maxPayloadSize
def maxServerFrameSize : Nat := serverFrameHeaderSize + maxPayloadSize

def errFrameTooLarge : ReadError := .new "trusttunnel: UDP frame too large"
def errFrameTooShort : ReadError := .new "trusttunnel: UDP frame too short"

/-- `M.Socksaddr`. The zone is that of an IPv6 address. -/
structure Socksaddr where
  addr : Addr
  zone : String
  port : UInt16
  fqdn : String
  deriving DecidableEq

namespace Socksaddr

def isIP (address : Socksaddr) : Bool := address.addr ≠ .zero

/-- The endpoint alone, its address unmapped: of an IPv4 address the zone goes as well. -/
def unmapped (address : Socksaddr) : Socksaddr :=
  match address.addr.unmap with
  | .v6 groups => ⟨.v6 groups, address.zone, address.port, ""⟩
  | addr => ⟨addr, "", address.port, ""⟩

end Socksaddr

/-! ## Writing -/

def putEndpoint (address : Socksaddr) : List UInt8 :=
  let octets := match address.addr.unmap with
    | .zero => List.replicate 16 0
    | .v4 octets => List.replicate 12 0 ++ octets.toList
    | .v6 groups => Addr.as16 groups
  octets ++ bigEndian 2 address.port.toNat

/-- `EncodeClientFrame`, with the bytes of the application name; `string` is `Socksaddr.String` of sing. -/
def encodeClientFrame (string : Socksaddr → String) (payload : List UInt8) (source destination : Socksaddr)
    (appName : List UInt8) :
    Except ReadError (List UInt8) :=
  if appName.length > maxAppNameSize then .error (.new "trusttunnel: application name too long")
  else if !destination.isIP then
    .error (.new ("trusttunnel: UDP destination is not an IP address: " ++ string destination))
  else if payload.length > maxPayloadSize then .error errFrameTooLarge
  else .ok (bigEndian frameLengthSize (clientFrameHeaderSize + appName.length + payload.length) ++
    putEndpoint source ++ putEndpoint destination ++ [UInt8.ofNat appName.length] ++ appName ++ payload)

def encodeServerFrame (payload : List UInt8) (source destination : Socksaddr) : Except ReadError (List UInt8) :=
  if payload.length > maxPayloadSize then .error errFrameTooLarge
  else .ok (bigEndian frameLengthSize (serverFrameHeaderSize + payload.length) ++
    putEndpoint source ++ putEndpoint destination ++ payload)

/-! ## Reading -/

def isZero (b : List UInt8) : Bool := b.all (· == 0)

def readEndpoint (b : List UInt8) : Socksaddr :=
  let addr :=
    if isZero (b.take 12) then Addr.addrFrom4 ((b.take frameAddressSize).drop 12)
    else (Addr.addrFrom16 (b.take frameAddressSize)).unmap
  ⟨addr, "", UInt16.ofNat (ofBigEndian ((b.drop frameAddressSize).take 2)), ""⟩

def scratchSize : Nat := frameLengthSize + clientFrameHeaderSize + maxAppNameSize

structure FrameReader where
  reader : Reader
  scratch : List UInt8
  scratch_length : scratch.length = scratchSize

/-- What a call gives. -/
structure Frame where
  source : Socksaddr
  destination : Socksaddr
  payload : List UInt8
  deriving DecidableEq

/-- The end of the stream inside a frame. -/
def unexpectedEOF (err : ReadError) : ReadError := if err = .eof then .unexpectedEOF else err

/-- The scratch area with `got` at its front. -/
def overwrite (scratch got : List UInt8) : List UInt8 := (got ++ scratch.drop got.length).take scratchSize

theorem length_overwrite {scratch : List UInt8} (h : scratch.length = scratchSize) (got : List UInt8) :
    (overwrite scratch got).length = scratchSize := by
  simp only [overwrite, List.length_take, List.length_append, List.length_drop, h]
  omega

namespace FrameReader

/-- `io.ReadFull` into the first `n` bytes of the scratch area. -/
def fill (r : FrameReader) (n : Nat) : Option ReadError × FrameReader :=
  let (got, err, reader) := r.reader.readFull n
  (err, ⟨reader, overwrite r.scratch got, length_overwrite r.scratch_length got⟩)

def readLength (r : FrameReader) (headerSize maxSize : Nat) : Except ReadError Nat × FrameReader :=
  match r.fill frameLengthSize with
  | (some err, r) => (.error err, r)
  | (none, r) =>
    let length := ofBigEndian (r.scratch.take frameLengthSize)
    if length < headerSize then (.error errFrameTooShort, r)
    else if length > maxSize then (.error errFrameTooLarge, r)
    else (.ok length, r)

def discard (r : FrameReader) (n : Nat) : Option ReadError × FrameReader :=
  if n = 0 then (none, r)
  else
    match r.fill (min n r.scratch.length) with
    | (some err, r) => (some err, r)
    | (none, next) => next.discard (n - min n r.scratch.length)
termination_by n
decreasing_by
  rw [r.scratch_length]
  unfold scratchSize frameLengthSize
  omega

section
-- `ReadFullFrom` of a buffer of sing with so much room
variable (readFullFrom : Nat → Reader → Nat → List UInt8 × Option ReadError × Reader)

/-- What `ReadFullFrom` is documented to do: `io.ReadFull` into the room of the buffer. -/
def ReadsFull : Prop := ∀ free r n, n ≤ free → readFullFrom free r n = r.readFull n

/-- `ReadFullFrom` into the payload. -/
def readPayload (r : FrameReader) (free n : Nat) : Except ReadError (List UInt8) × FrameReader :=
  match readFullFrom free r.reader n with
  | (got, none, reader) => (.ok got, { r with reader := reader })
  | (_, some err, reader) => (.error (unexpectedEOF err), { r with reader := reader })

/-- The application name and the payload of a frame whose header was read. -/
def readClientRest (r : FrameReader) (source destination : Socksaddr) (appNameLen payloadLen : Nat) :
    Except ReadError Frame × FrameReader :=
  match if appNameLen > 0 then r.fill appNameLen else (none, r) with
  | (some err, r) => (.error (unexpectedEOF err), r)
  | (none, r) =>
    match r.readPayload readFullFrom payloadLen payloadLen with
    | (.error err, r) => (.error err, r)
    | (.ok payload, r) => (.ok ⟨source, destination, payload⟩, r)

def readClientFrame (r : FrameReader) : Except ReadError Frame × FrameReader :=
  match r.readLength clientFrameHeaderSize maxClientFrameSize with
  | (.error err, r) => (.error err, r)
  | (.ok length, r) =>
    match r.fill clientFrameHeaderSize with
    | (some err, r) => (.error (unexpectedEOF err), r)
    | (none, r) =>
      let header := r.scratch.take clientFrameHeaderSize
      let source := readEndpoint header
      let destination := readEndpoint (header.drop frameEndpointSize)
      let appNameLen := (header.getD (2 * frameEndpointSize) 0).toNat
      if length < clientFrameHeaderSize + appNameLen then (.error errFrameTooShort, r)
      else if length - clientFrameHeaderSize - appNameLen > maxPayloadSize then (.error errFrameTooLarge, r)
      else r.readClientRest readFullFrom source destination appNameLen (length - clientFrameHeaderSize - appNameLen)

/-- `ReadServerFrame` into a buffer with `free` bytes left. -/
def readServerFrame (r : FrameReader) (free : Nat) : Except ReadError Frame × FrameReader :=
  match r.readLength serverFrameHeaderSize maxServerFrameSize with
  | (.error err, r) => (.error err, r)
  | (.ok length, r) =>
    match r.fill serverFrameHeaderSize with
    | (some err, r) => (.error (unexpectedEOF err), r)
    | (none, r) =>
      let header := r.scratch.take serverFrameHeaderSize
      let source := readEndpoint header
      let destination := readEndpoint (header.drop frameEndpointSize)
      let payloadLen := length - serverFrameHeaderSize
      let readLen := min payloadLen free
      match r.readPayload readFullFrom free readLen with
      | (.error err, r) => (.error err, r)
      | (.ok payload, r) =>
        match if payloadLen - readLen > 0 then r.discard (payloadLen - readLen) else (none, r) with
        | (some err, r) => (.error (unexpectedEOF err), r)
        | (none, r) => (.ok ⟨source, destination, payload⟩, r)

end
end FrameReader

end SingBox.TrustTunnel
