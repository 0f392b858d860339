import SingBox.TrustTunnel.Frames

/-!
# Datagrams read back from the stream

What a reader gives for a stream of frames, however the stream is cut. Everything comes back but
two kinds of addresses: an IPv6 address that begins with twelve zeros is read as IPv4, and a zone is
not sent. On any stream a call reads no more than the frame is said to have.
-/
namespace SingBox.TrustTunnel

open Lib.Wire Lib.Stream NetIP List Addr FrameReader Reader

/-! ## Endpoints -/

/-- The endpoint arrives: IPv4, or IPv6 without a zone and with something in its first twelve bytes. -/
def Socksaddr.Plain (address : Socksaddr) : Prop :=
  match address.addr.unmap with
  | .zero => False
  | .v4 _ => True
  | .v6 groups => address.zone = "" ∧ isZero ((as16 groups).take 12) = false

@[simp] theorem length_putEndpoint (address : Socksaddr) : (putEndpoint address).length = frameEndpointSize := by
  unfold putEndpoint
  cases address.addr.unmap with
  | zero | v4 | v6 => simp [frameEndpointSize, frameAddressSize]

theorem readEndpoint_append {b : List UInt8} (h : b.length = frameEndpointSize) (rest : List UInt8) :
    readEndpoint (b ++ rest) = readEndpoint b := by
  have hlength : b.length = 18 := h
  have htake : ∀ n ≤ 18, (b ++ rest).take n = b.take n := fun n hn =>
    take_append_of_le_length (by omega)
  have hport : ((b ++ rest).drop 16).take 2 = (b.drop 16).take 2 := by
    rw [drop_append_of_le_length (by omega), take_append_of_le_length (by simp [hlength])]
  simp only [readEndpoint, frameAddressSize, htake 12 (by omega), htake 16 (by omega), hport]

theorem isZero_replicate (n : Nat) : isZero (List.replicate n 0) = true := by simp [isZero]

theorem unmap_unmap (addr : Addr) : addr.unmap.unmap = addr.unmap := by
  cases addr with
  | zero | v4 => rfl
  | v6 groups =>
    by_cases h : is4In6 groups = true
    · simp [unmap, h, addrFrom4]
    · simp [unmap, h]

/-- The endpoint that is read for sixteen bytes of an address and a port. -/
theorem readEndpoint_parts {octets : List UInt8} (h : octets.length = 16) (port : UInt16) :
    readEndpoint (octets ++ bigEndian 2 port.toNat) =
      ⟨if isZero (octets.take 12) then addrFrom4 (octets.drop 12) else (addrFrom16 octets).unmap, "", port, ""⟩ := by
  have htwelve : (octets ++ bigEndian 2 port.toNat).take 12 = octets.take 12 :=
    take_append_of_le_length (by omega)
  have hsixteen : (octets ++ bigEndian 2 port.toNat).take 16 = octets := by rw [← h, take_left]
  have hport : ((octets ++ bigEndian 2 port.toNat).drop 16).take 2 = bigEndian 2 port.toNat := by
    rw [← h, drop_left, take_of_length_le (by simp)]
  have hvalue : ofBigEndian (bigEndian 2 port.toNat) = port.toNat := ofBigEndian_bigEndian port.toNat_lt
  simp only [readEndpoint, frameAddressSize, htwelve, hsixteen, hport, hvalue, UInt16.ofNat_toNat]

theorem readEndpoint_putEndpoint_iff (address : Socksaddr) :
    readEndpoint (putEndpoint address) = address.unmapped ↔ address.Plain := by
  have hidem := unmap_unmap address.addr
  unfold putEndpoint Socksaddr.unmapped Socksaddr.Plain
  cases haddr : address.addr.unmap with
  | zero =>
    rw [readEndpoint_parts (by simp)]
    simp [addrFrom4, isZero]
  | v4 octets =>
    rw [readEndpoint_parts (by simp)]
    have hzero : (List.replicate 12 (0 : UInt8) ++ octets.toList).take 12 = List.replicate 12 0 := by simp
    have hdrop : (List.replicate 12 (0 : UInt8) ++ octets.toList).drop 12 = octets.toList := by simp
    simp only [hzero, hdrop, isZero_replicate, if_true, addrFrom4_toList]
  | v6 groups =>
    rw [readEndpoint_parts (by simp)]
    rw [haddr] at hidem
    by_cases hz : isZero ((as16 groups).take 12) = true
    · simp [hz, addrFrom4]
    · simp only [hz, addrFrom16_as16, hidem, Socksaddr.mk.injEq, Bool.false_eq_true, if_false, true_and, and_true]
      exact eq_comm

/-! ## The parts of a frame -/

namespace FrameReader

def bytes (r : FrameReader) : List UInt8 := r.reader.bytes

/-- The reader after it has read what stands in front of `rest`. -/
structure Behind (r next : FrameReader) (rest : List UInt8) : Prop where
  bytes : next.bytes = rest
  last : next.reader.last = r.reader.last

variable {r next : FrameReader} {rest payload appName frame : List UInt8} {source destination : Socksaddr} {n : Nat}

variable {front : List UInt8} {length headerSize maxSize m : Nat} {string : Socksaddr → String}

variable {readFullFrom : Nat → Reader → Nat → List UInt8 × Option ReadError × Reader} (hfull : ReadsFull readFullFrom)

theorem fill_append (h : r.bytes = front ++ rest) (hn : front.length ≤ scratchSize) :
    ∃ next, r.fill front.length = (none, next) ∧ r.Behind next rest ∧ next.scratch.take front.length = front := by
  obtain ⟨reader, hread, hrest, hlast⟩ := readFull_append h
  refine ⟨⟨reader, overwrite r.scratch front, length_overwrite r.scratch_length front⟩, ?_, ⟨hrest, hlast⟩, ?_⟩
  · simp only [fill, hread]
  · simp only [overwrite, take_take, Nat.min_eq_left hn, take_left]

include hfull in
theorem readPayload_append {free : Nat} (h : r.bytes = payload ++ rest) (hfree : payload.length ≤ free) :
    ∃ next, r.readPayload readFullFrom free payload.length = (.ok payload, next) ∧ r.Behind next rest := by
  obtain ⟨reader, hread, hrest, hlast⟩ := readFull_append h
  refine ⟨{ r with reader := reader }, ?_, ⟨hrest, hlast⟩⟩
  simp only [readPayload, hfull free _ _ hfree, hread]

theorem readLength_append (h : r.bytes = bigEndian frameLengthSize length ++ rest) (hlt : length < 2 ^ 32)
    (hmin : headerSize ≤ length) (hmax : length ≤ maxSize) :
    ∃ next, r.readLength headerSize maxSize = (.ok length, next) ∧ r.Behind next rest := by
  have hfill := fill_append h (by simp [scratchSize, Nat.add_assoc])
  rw [length_bigEndian] at hfill
  obtain ⟨next, hfill, hbehind, hscratch⟩ := hfill
  have hvalue : ofBigEndian (bigEndian frameLengthSize length) = length := ofBigEndian_bigEndian hlt
  refine ⟨next, ?_, hbehind⟩
  simp only [readLength, hfill, hscratch, hvalue, not_lt.mpr hmin, if_false, not_lt.mpr hmax]

/-- Between two frames the end is the end. -/
theorem readLength_nil (h : r.bytes = []) (headerSize maxSize : Nat) :
    (r.readLength headerSize maxSize).1 = .error r.reader.last := by
  obtain ⟨reader, hread, -⟩ := readFull_of_lt (r := r.reader) (n := frameLengthSize)
    (by rw [show r.reader.bytes = [] from h]; decide)
  have herr : truncated r.reader.bytes r.reader.last = r.reader.last := by
    rw [show r.reader.bytes = [] from h]
    simp [truncated]
  simp only [readLength, fill, hread, herr]

theorem discard_append (h : r.bytes = front ++ rest) :
    ∃ next, r.discard front.length = (none, next) ∧ r.Behind next rest := by
  -- Every round takes as much as the scratch area holds.
  induction hlen : front.length using Nat.strongRecOn generalizing r front with
  | ind n ih =>
    rw [discard]
    by_cases hn : n = 0
    · rw [if_pos hn]
      obtain rfl := length_eq_zero_iff.mp (hlen.trans hn)
      exact ⟨r, rfl, h, rfl⟩
    rw [if_neg hn, r.scratch_length]
    have hsize : 0 < scratchSize := by decide
    have hsplit : r.bytes = front.take (min n scratchSize) ++ (front.drop (min n scratchSize) ++ rest) := by
      rw [← append_assoc, take_append_drop, h]
    have hfront : (front.take (min n scratchSize)).length = min n scratchSize := by
      rw [length_take, hlen]
      omega
    obtain ⟨mid, hfill, hbehind, -⟩ := fill_append hsplit (by omega)
    rw [hfront] at hfill
    obtain ⟨next, hdiscard, hnext⟩ := ih (n - min n scratchSize) (by omega) hbehind.bytes (by simp [hlen])
    refine ⟨next, ?_, hnext.bytes, hnext.last.trans hbehind.last⟩
    simp only [hfill, hdiscard]

/-! ## One frame -/

theorem header_append (source destination : Socksaddr) (more rest : List UInt8)
    (h : r.bytes = putEndpoint source ++ (putEndpoint destination ++ (more ++ rest)))
    (hle : 2 * frameEndpointSize + more.length ≤ scratchSize) :
    ∃ next, r.fill (2 * frameEndpointSize + more.length) = (none, next) ∧ r.Behind next rest ∧
      next.scratch.take (2 * frameEndpointSize + more.length) =
        putEndpoint source ++ putEndpoint destination ++ more := by
  have hlength : (putEndpoint source ++ putEndpoint destination ++ more).length =
      2 * frameEndpointSize + more.length := by
    simp only [length_append, length_putEndpoint]
    omega
  rw [← hlength] at hle ⊢
  exact fill_append (by rw [h]; simp only [append_assoc]) hle

theorem readEndpoints (source destination : Socksaddr) (more : List UInt8) :
    readEndpoint (putEndpoint source ++ putEndpoint destination ++ more) = readEndpoint (putEndpoint source) ∧
    readEndpoint ((putEndpoint source ++ putEndpoint destination ++ more).drop frameEndpointSize) =
      readEndpoint (putEndpoint destination) := by
  constructor
  · rw [append_assoc, readEndpoint_append (length_putEndpoint source)]
  · rw [append_assoc, ← length_putEndpoint source, drop_left, readEndpoint_append (length_putEndpoint destination)]

include hfull in
theorem readClientRest_append (h : r.bytes = appName ++ (payload ++ rest)) (hname : appName.length ≤ scratchSize)
    (source destination : Socksaddr) :
    ∃ next, r.readClientRest readFullFrom source destination appName.length payload.length =
        (.ok ⟨source, destination, payload⟩, next) ∧
      r.Behind next rest := by
  have hskip : ∃ mid, (if appName.length > 0 then r.fill appName.length else (none, r)) = (none, mid) ∧
      r.Behind mid (payload ++ rest) := by
    by_cases hpos : appName.length > 0
    · obtain ⟨mid, hfill, hbehind, -⟩ := fill_append h hname
      exact ⟨mid, by rw [if_pos hpos, hfill], hbehind⟩
    · obtain rfl := eq_nil_of_length_eq_zero (Nat.eq_zero_of_not_pos hpos)
      exact ⟨r, if_neg hpos, h, rfl⟩
  obtain ⟨mid, hmid, hbehind⟩ := hskip
  obtain ⟨next, hpayload, hnext⟩ := readPayload_append hfull hbehind.bytes le_rfl
  refine ⟨next, ?_, hnext.bytes, hnext.last.trans hbehind.last⟩
  simp only [readClientRest, hmid, hpayload]

theorem encodeClientFrame_ok (h : encodeClientFrame string payload source destination appName = .ok frame) :
    appName.length ≤ 255 ∧ payload.length ≤ 65535 ∧
      frame = bigEndian frameLengthSize (clientFrameHeaderSize + appName.length + payload.length) ++
        putEndpoint source ++ putEndpoint destination ++ [UInt8.ofNat appName.length] ++ appName ++ payload := by
  unfold encodeClientFrame at h
  split at h
  · cases h
  next hname =>
    split at h
    · cases h
    · split at h
      · cases h
      next hpayload => exact ⟨not_lt.mp hname, not_lt.mp hpayload, (Except.ok.inj h).symm⟩

theorem getD_header (source destination : Socksaddr) (b : UInt8) :
    (putEndpoint source ++ putEndpoint destination ++ [b]).getD (2 * frameEndpointSize) 0 = b := by
  have hlength : (putEndpoint source ++ putEndpoint destination).length = 2 * frameEndpointSize := by
    simp only [length_append, length_putEndpoint]
    omega
  rw [← hlength, getD_eq_getElem?_getD, List.getElem?_append_right (le_refl _), Nat.sub_self]
  rfl

include hfull in
/-- A client frame comes back as the endpoints are read. -/
theorem readClientFrame_append (henc : encodeClientFrame string payload source destination appName = .ok frame)
    (h : r.bytes = frame ++ rest) :
    ∃ next, r.readClientFrame readFullFrom =
        (.ok ⟨readEndpoint (putEndpoint source), readEndpoint (putEndpoint destination), payload⟩, next) ∧
      r.Behind next rest := by
  obtain ⟨hname, hpayload, rfl⟩ := encodeClientFrame_ok henc
  simp only [append_assoc] at h
  have hmin : clientFrameHeaderSize ≤ clientFrameHeaderSize + appName.length + payload.length := by omega
  have hmax : clientFrameHeaderSize + appName.length + payload.length ≤ maxClientFrameSize := by
    unfold maxClientFrameSize maxAppNameSize maxPayloadSize
    omega
  have hlt : clientFrameHeaderSize + appName.length + payload.length < 2 ^ 32 := by
    unfold clientFrameHeaderSize frameEndpointSize frameAddressSize
    omega
  obtain ⟨r₁, hlength, hbehind₁⟩ := readLength_append h hlt hmin hmax
  obtain ⟨r₂, hfill, hbehind₂, hscratch⟩ := header_append _ _ _ _ hbehind₁.bytes
    (by decide : 2 * frameEndpointSize + 1 ≤ scratchSize)
  have hcount : (UInt8.ofNat appName.length).toNat = appName.length := by
    rw [UInt8.toNat_ofNat']
    omega
  have hpayloadLen : clientFrameHeaderSize + appName.length + payload.length - clientFrameHeaderSize - appName.length =
      payload.length := by omega
  have hscratchSize : appName.length ≤ scratchSize := le_trans hname (by decide)
  obtain ⟨r₃, hrest, hbehind₃⟩ := readClientRest_append hfull hbehind₂.bytes hscratchSize
    (readEndpoint (putEndpoint source)) (readEndpoint (putEndpoint destination))
  refine ⟨r₃, ?_, hbehind₃.bytes, hbehind₃.last.trans (hbehind₂.last.trans hbehind₁.last)⟩
  have hsize : 2 * frameEndpointSize + [UInt8.ofNat appName.length].length = clientFrameHeaderSize := rfl
  rw [hsize] at hfill hscratch
  simp only [readClientFrame, hlength, hfill, hscratch, readEndpoints, getD_header, hcount, hpayloadLen, hrest]
  rw [if_neg (by omega), if_neg (not_lt.mpr hpayload : ¬payload.length > maxPayloadSize)]

include hfull in
/-- A server frame comes back cut to the buffer, and the stream stands behind the whole frame. -/
theorem readServerFrame_append (free : Nat) (henc : encodeServerFrame payload source destination = .ok frame)
    (h : r.bytes = frame ++ rest) :
    ∃ next, r.readServerFrame readFullFrom free =
        (.ok ⟨readEndpoint (putEndpoint source), readEndpoint (putEndpoint destination), payload.take free⟩, next) ∧
      r.Behind next rest := by
  unfold encodeServerFrame at henc
  split at henc
  · cases henc
  rename_i hpayload
  cases henc
  have hpayload : payload.length ≤ 65535 := not_lt.mp hpayload
  simp only [append_assoc] at h
  have hmax : serverFrameHeaderSize + payload.length ≤ maxServerFrameSize := Nat.add_le_add_left hpayload _
  have hlt : serverFrameHeaderSize + payload.length < 2 ^ 32 := by
    unfold serverFrameHeaderSize frameEndpointSize frameAddressSize
    omega
  obtain ⟨r₁, hlength, hbehind₁⟩ := readLength_append h hlt (Nat.le_add_right serverFrameHeaderSize _) hmax
  obtain ⟨r₂, hfill, hbehind₂, hscratch⟩ :=
    header_append source destination [] (payload ++ rest) hbehind₁.bytes (by decide)
  have hsize : 2 * frameEndpointSize + ([] : List UInt8).length = serverFrameHeaderSize := rfl
  rw [hsize] at hfill hscratch
  have hsplit : r₂.bytes =
      payload.take (min payload.length free) ++ (payload.drop (min payload.length free) ++ rest) := by
    rw [hbehind₂.bytes, ← append_assoc, take_append_drop]
  obtain ⟨r₃, hread, hbehind₃⟩ := readPayload_append hfull hsplit (show _ ≤ free by rw [length_take]; omega)
  obtain ⟨r₄, hdiscard, hbehind₄⟩ := discard_append hbehind₃.bytes
  have hpayloadLen : serverFrameHeaderSize + payload.length - serverFrameHeaderSize = payload.length := by omega
  have hreadLen : (payload.take (min payload.length free)).length = min payload.length free := by
    rw [length_take]
    omega
  have hcut : payload.take (min payload.length free) = payload.take free := by
    rw [Nat.min_comm, ← take_take, take_length]
  rw [length_drop] at hdiscard
  rw [hreadLen, hcut] at hread
  have hleft : ∃ next, (if payload.length - min payload.length free > 0 then
      r₃.discard (payload.length - min payload.length free) else (none, r₃)) = (none, next) ∧ r₃.Behind next rest := by
    by_cases hpos : payload.length - min payload.length free > 0
    · exact ⟨r₄, by rw [if_pos hpos, hdiscard], hbehind₄⟩
    · have hnil : payload.drop (min payload.length free) = [] := drop_of_length_le (by omega)
      refine ⟨r₃, if_neg hpos, ?_, rfl⟩
      rw [hbehind₃.bytes, hnil, nil_append]
  obtain ⟨next, hnext, hbehind⟩ := hleft
  have hends := readEndpoints source destination []
  refine ⟨next, ?_, hbehind.bytes, hbehind.last.trans (hbehind₃.last.trans (hbehind₂.last.trans hbehind₁.last))⟩
  simp only [readServerFrame, hlength, hfill, hscratch, hends, hpayloadLen, hread, hnext]

/-! ## How much a call reads -/

/-- At most `n` bytes were read. -/
def Within (r next : FrameReader) (n : Nat) : Prop := ∃ front, r.bytes = front ++ next.bytes ∧ front.length ≤ n

theorem Within.refl (r : FrameReader) (n : Nat) : r.Within r n := ⟨[], rfl, Nat.zero_le n⟩

theorem Within.trans {mid : FrameReader} (h : r.Within mid m) (h' : mid.Within next n) :
    r.Within next (m + n) := by
  obtain ⟨front, hfront, hm⟩ := h
  obtain ⟨more, hmore, hn⟩ := h'
  refine ⟨front ++ more, ?_, ?_⟩
  · rw [hfront, hmore, append_assoc]
  · rw [length_append]
    omega

theorem Within.mono (h : r.Within next m) (hle : m ≤ n) : r.Within next n := by
  obtain ⟨front, hfront, hm⟩ := h
  exact ⟨front, hfront, le_trans hm hle⟩

theorem within_of_readFull (h : next.bytes = (r.reader.readFull n).2.2.bytes) :
    r.Within next n := by
  rw [readFull_rest] at h
  exact ⟨r.bytes.take n, by rw [h]; exact (take_append_drop n r.bytes).symm, length_take_le n _⟩

theorem fill_within (r : FrameReader) (n : Nat) : r.Within (r.fill n).2 n := within_of_readFull rfl

include hfull in
theorem readPayload_within (r : FrameReader) {free : Nat} (hfree : n ≤ free) :
    r.Within (r.readPayload readFullFrom free n).2 n := by
  refine within_of_readFull ?_
  rw [readPayload, hfull free _ _ hfree]
  rcases r.reader.readFull n with ⟨got, _ | err, reader⟩
  · rfl
  · rfl

theorem discard_within (r : FrameReader) (n : Nat) : r.Within (r.discard n).2 n := by
  induction n using Nat.strongRecOn generalizing r with
  | ind n ih =>
    rw [discard]
    by_cases hn : n = 0
    · rw [if_pos hn]
      exact Within.refl r n
    rw [if_neg hn]
    have hfill := r.fill_within (min n r.scratch.length)
    have hpos : 0 < r.scratch.length := by
      rw [r.scratch_length]
      decide
    rcases hres : r.fill (min n r.scratch.length) with ⟨_ | err, next⟩
    · rw [hres] at hfill
      exact (hfill.trans (ih (n - min n r.scratch.length) (by omega) next)).mono (by omega)
    · rw [hres] at hfill
      exact hfill.mono (by omega)

/-- The length that the first bytes declare. -/
def declared (bytes : List UInt8) : Nat :=
  if bytes.length < frameLengthSize then 0 else ofBigEndian (bytes.take frameLengthSize)

theorem readLength_within (r : FrameReader) (headerSize maxSize : Nat) :
    r.Within (r.readLength headerSize maxSize).2 frameLengthSize := by
  have hfill := r.fill_within frameLengthSize
  unfold readLength
  rcases hres : r.fill frameLengthSize with ⟨_ | err, next⟩
  · rw [hres] at hfill
    dsimp only
    split
    · exact hfill
    · split
      · exact hfill
      · exact hfill
  · rw [hres] at hfill
    exact hfill

theorem readLength_ok (h : r.readLength headerSize maxSize = (.ok length, next)) :
    length = declared r.bytes ∧ headerSize ≤ length := by
  by_cases hlen : frameLengthSize ≤ r.bytes.length
  · obtain ⟨mid, hfill, -, hscratch⟩ := fill_append (take_append_drop frameLengthSize r.bytes).symm (by
      rw [length_take, Nat.min_eq_left hlen]
      decide)
    rw [length_take, Nat.min_eq_left hlen] at hfill hscratch
    simp only [readLength, hfill, hscratch] at h
    split at h
    · cases h
    next hmin =>
      split at h
      · cases h
      · cases h
        exact ⟨(if_neg (not_lt.mpr hlen)).symm, not_lt.mp hmin⟩
  · obtain ⟨reader, hread, -⟩ := readFull_of_lt (r := r.reader) (Nat.lt_of_not_le hlen)
    simp only [readLength, fill, hread] at h
    cases h

include hfull in
theorem readClientRest_within (r : FrameReader) (source destination : Socksaddr) (appNameLen payloadLen : Nat) :
    r.Within (r.readClientRest readFullFrom source destination appNameLen payloadLen).2 (appNameLen + payloadLen) := by
  have hname : r.Within (if appNameLen > 0 then r.fill appNameLen else (none, r)).2 appNameLen := by
    split
    · exact r.fill_within appNameLen
    · exact Within.refl r _
  unfold readClientRest
  generalize (if appNameLen > 0 then r.fill appNameLen else (none, r)) = named at hname ⊢
  rcases named with ⟨_ | err, mid⟩
  · have hpayload := mid.readPayload_within hfull (le_refl payloadLen)
    dsimp only
    rcases hres : mid.readPayload readFullFrom payloadLen payloadLen with ⟨err | payload, next⟩
    all_goals
      rw [hres] at hpayload
      exact hname.trans hpayload
  · exact Within.mono hname (Nat.le_add_right _ _)

include hfull in
theorem readClientFrame_within (r : FrameReader) :
    r.Within (r.readClientFrame readFullFrom).2 (frameLengthSize + declared r.bytes) := by
  have hlength := r.readLength_within clientFrameHeaderSize maxClientFrameSize
  unfold readClientFrame
  rcases hres : r.readLength clientFrameHeaderSize maxClientFrameSize with ⟨err | length, mid⟩
  · rw [hres] at hlength
    exact hlength.mono (Nat.le_add_right _ _)
  obtain ⟨hdeclared, hmin⟩ := readLength_ok hres
  rw [hres] at hlength
  rw [← hdeclared]
  refine hlength.trans ?_
  dsimp only
  have hheader := mid.fill_within clientFrameHeaderSize
  rcases hfill : mid.fill clientFrameHeaderSize with ⟨_ | err, next⟩
  · rw [hfill] at hheader
    dsimp only
    split
    · exact hheader.mono hmin
    · split
      · exact hheader.mono hmin
      · exact (hheader.trans (next.readClientRest_within hfull _ _ _ _)).mono (by omega)
  · rw [hfill] at hheader
    exact hheader.mono hmin

theorem discardIf_within (r : FrameReader) (n : Nat) : r.Within (if n > 0 then r.discard n else (none, r)).2 n := by
  split
  · exact r.discard_within n
  · exact Within.refl r n

include hfull in
theorem readServerFrame_within (r : FrameReader) (free : Nat) :
    r.Within (r.readServerFrame readFullFrom free).2 (frameLengthSize + declared r.bytes) := by
  have hlength := r.readLength_within serverFrameHeaderSize maxServerFrameSize
  unfold readServerFrame
  rcases hres : r.readLength serverFrameHeaderSize maxServerFrameSize with ⟨err | length, mid⟩
  · rw [hres] at hlength
    exact hlength.mono (Nat.le_add_right _ _)
  obtain ⟨hdeclared, hmin⟩ := readLength_ok hres
  rw [hres] at hlength
  rw [← hdeclared]
  refine hlength.trans ?_
  dsimp only
  have hheader := mid.fill_within serverFrameHeaderSize
  rcases hfill : mid.fill serverFrameHeaderSize with ⟨_ | err, next⟩
  · rw [hfill] at hheader
    dsimp only
    obtain ⟨payloadLen, rfl⟩ := Nat.exists_eq_add_of_le hmin
    rw [Nat.add_sub_cancel_left]
    refine hheader.trans ?_
    have hpayload := next.readPayload_within hfull (Nat.min_le_right payloadLen free)
    rcases hread : next.readPayload readFullFrom free (min payloadLen free) with ⟨err | payload, behind⟩
    · rw [hread] at hpayload
      exact hpayload.mono (Nat.min_le_left _ _)
    rw [hread] at hpayload
    dsimp only
    have hleft := behind.discardIf_within (payloadLen - min payloadLen free)
    have hsum : min payloadLen free + (payloadLen - min payloadLen free) = payloadLen := by omega
    have hall := hpayload.trans hleft
    rw [hsum] at hall
    generalize (if payloadLen - min payloadLen free > 0 then behind.discard (payloadLen - min payloadLen free)
      else (none, behind)) = done at hall ⊢
    rcases done with ⟨_ | err, final⟩
    · exact hall
    · exact hall
  · rw [hfill] at hheader
    exact hheader.mono hmin

end FrameReader

/-! ## Streams of frames -/

/-- A datagram between two IP addresses. -/
structure Datagram where
  source : Socksaddr
  destination : Socksaddr
  payload : List UInt8
  source_isIP : source.isIP
  destination_isIP : destination.isIP
  payload_le : payload.length ≤ maxPayloadSize

/-- A datagram with the name of the application it comes from. -/
structure ClientDatagram extends Datagram where
  appName : List UInt8
  appName_le : appName.length ≤ maxAppNameSize

/-- The datagram as it should arrive in a buffer of `free` bytes. -/
def Datagram.frame (d : Datagram) (free : Nat) : Frame :=
  ⟨d.source.unmapped, d.destination.unmapped, d.payload.take free⟩

def Datagram.Plain (d : Datagram) : Prop := d.source.Plain ∧ d.destination.Plain

/-- The frames of a stream one behind the other. -/
def encodeAll {δ : Type} (encode : δ → Except ReadError (List UInt8)) : List δ → Except ReadError (List UInt8)
  | [] => .ok []
  | d :: ds =>
    match encode d with
    | .error err => .error err
    | .ok frame =>
      match encodeAll encode ds with
      | .error err => .error err
      | .ok rest => .ok (frame ++ rest)

/-- What one call after the other gives. -/
def readAll {ι : Type} (read : ι → FrameReader → Except ReadError Frame × FrameReader) :
    List ι → FrameReader → List (Except ReadError Frame)
  | [], _ => []
  | i :: is, r => (read i r).1 :: readAll read is (read i r).2

def ClientDatagram.encode (string : Socksaddr → String) (d : ClientDatagram) : Except ReadError (List UInt8) :=
  encodeClientFrame string d.payload d.source d.destination d.appName

/-- A datagram from a server and the buffer it is read into. -/
def encodeBuffered (d : Datagram × Nat) : Except ReadError (List UInt8) :=
  encodeServerFrame d.1.payload d.1.source d.1.destination

/-- The datagrams come back in their order and then the end, from any stream of their frames. -/
def ComesBack {δ ι : Type} (encode : δ → Except ReadError (List UInt8))
    (read : ι → FrameReader → Except ReadError Frame × FrameReader) (call : δ → ι) (frame : δ → Frame) (ds : List δ) :
    Prop :=
  ∃ bytes, encodeAll encode ds = .ok bytes ∧ ∀ (r : FrameReader) (i : ι), r.bytes = bytes → r.reader.last = .eof →
    readAll read (ds.map call ++ [i]) r = ds.map (fun d => .ok (frame d)) ++ [.error .eof]

structure FramesSurvive (string : Socksaddr → String)
    (readFullFrom : Nat → Reader → Nat → List UInt8 × Option ReadError × Reader) (client : List ClientDatagram)
    (server : List (Datagram × Nat)) : Prop where
  client : ComesBack (ClientDatagram.encode string) (fun _ r => r.readClientFrame readFullFrom) (fun _ => ())
    (fun d => d.frame d.payload.length) client
  server : ComesBack encodeBuffered (fun free r => r.readServerFrame readFullFrom free) (·.2) (fun d => d.1.frame d.2)
    server
  clientBound (r : FrameReader) : r.Within (r.readClientFrame readFullFrom).2 (frameLengthSize + declared r.bytes)
  serverBound (r : FrameReader) (free : Nat) :
    r.Within (r.readServerFrame readFullFrom free).2 (frameLengthSize + declared r.bytes)

section
variable {δ ι : Type} {encode : δ → Except ReadError (List UInt8)}
  {read : ι → FrameReader → Except ReadError Frame × FrameReader} {call : δ → ι} {got : δ → Frame}

variable (hone : ∀ (d : δ) (frame : List UInt8) (r : FrameReader) (rest : List UInt8),
    encode d = .ok frame → r.bytes = frame ++ rest → ∃ next, read (call d) r = (.ok (got d), next) ∧ r.Behind next rest)
  (hend : ∀ (i : ι) (r : FrameReader), r.bytes = [] → (read i r).1 = .error r.reader.last)

include hone hend in
/-- What a reader makes of a stream, from what it makes of a frame. -/
theorem readAll_frames (ds : List δ) {bytes : List UInt8} (henc : encodeAll encode ds = .ok bytes) (r : FrameReader)
    (i : ι) (h : r.bytes = bytes) :
    readAll read (ds.map call ++ [i]) r = ds.map (fun d => .ok (got d)) ++ [.error r.reader.last] := by
  induction ds generalizing bytes r with
  | nil =>
    cases henc
    simp only [map_nil, nil_append, readAll, hend i r h]
  | cons d ds ih =>
    rw [encodeAll] at henc
    cases hframe : encode d with
    | error err =>
      rw [hframe] at henc
      cases henc
    | ok frame =>
      rw [hframe] at henc
      cases hrest : encodeAll encode ds with
      | error err =>
        simp only [hrest] at henc
        cases henc
      | ok rest =>
        simp only [hrest, Except.ok.injEq] at henc
        obtain ⟨next, hread, hbehind⟩ := hone d frame r rest hframe (h.trans henc.symm)
        simp only [map_cons, cons_append, readAll, hread, ih hrest next hbehind.bytes, hbehind.last]

theorem encodeAll_ok (hok : ∀ d, ∃ frame, encode d = .ok frame) (ds : List δ) :
    ∃ bytes, encodeAll encode ds = .ok bytes := by
  induction ds with
  | nil => exact ⟨[], rfl⟩
  | cons d ds ih =>
    obtain ⟨frame, hframe⟩ := hok d
    obtain ⟨rest, hrest⟩ := ih
    exact ⟨frame ++ rest, by simp only [encodeAll, hframe, hrest]⟩

def readerOf (bytes : List UInt8) : FrameReader :=
  ⟨⟨[bytes], .eof, false⟩, List.replicate scratchSize 0, length_replicate⟩

variable (got) in
include hone hend in
theorem comesBack_iff (hok : ∀ d, ∃ frame, encode d = .ok frame) (i : ι) (frame : δ → Frame) (ds : List δ) :
    ComesBack encode read call frame ds ↔ ∀ d ∈ ds, got d = frame d := by
  constructor
  · rintro ⟨bytes, henc, hread⟩
    have hbytes : (readerOf bytes).bytes = bytes := by simp [readerOf, FrameReader.bytes, Reader.bytes]
    have hback := hread (readerOf bytes) i hbytes rfl
    rw [readAll_frames hone hend ds henc (readerOf bytes) i hbytes] at hback
    have hmap := append_cancel_right hback
    intro d hd
    exact Except.ok.inj (map_inj_left.mp hmap d hd)
  · intro h
    obtain ⟨bytes, henc⟩ := encodeAll_ok hok ds
    refine ⟨bytes, henc, fun r i hr hlast => ?_⟩
    rw [readAll_frames hone hend ds henc r i hr, hlast]
    congr 1
    exact map_congr_left fun d hd => by rw [h d hd]

end

theorem ClientDatagram.encode_ok (string : Socksaddr → String) (d : ClientDatagram) :
    ∃ frame, d.encode string = .ok frame := by
  rw [ClientDatagram.encode, encodeClientFrame, if_neg (not_lt.mpr d.appName_le), if_neg (by simp [d.destination_isIP]),
    if_neg (not_lt.mpr d.payload_le)]
  exact ⟨_, rfl⟩

theorem encodeBuffered_ok (d : Datagram × Nat) : ∃ frame, encodeBuffered d = .ok frame := by
  rw [encodeBuffered, encodeServerFrame, if_neg (not_lt.mpr d.1.payload_le)]
  exact ⟨_, rfl⟩

/-- What arrives of a datagram. -/
def Datagram.arrived (d : Datagram) (free : Nat) : Frame :=
  ⟨readEndpoint (putEndpoint d.source), readEndpoint (putEndpoint d.destination), d.payload.take free⟩

theorem Datagram.arrived_iff (d : Datagram) (free : Nat) : d.arrived free = d.frame free ↔ d.Plain := by
  rw [Datagram.arrived, Datagram.frame, Frame.mk.injEq, readEndpoint_putEndpoint_iff, readEndpoint_putEndpoint_iff,
    Datagram.Plain]
  simp

section
variable {string : Socksaddr → String} {readFullFrom : Nat → Reader → Nat → List UInt8 × Option ReadError × Reader}
  (hfull : ReadsFull readFullFrom)

include hfull in
theorem client_comesBack_iff (client : List ClientDatagram) :
    ComesBack (ClientDatagram.encode string) (fun _ r => r.readClientFrame readFullFrom) (fun _ => ())
      (fun d => d.frame d.payload.length) client ↔ ∀ d ∈ client, d.Plain := by
  rw [comesBack_iff (fun d => d.arrived d.payload.length) (fun d frame r rest henc hr => ?_) (fun _ r hr => ?_)
    (ClientDatagram.encode_ok string) ()]
  · exact forall₂_congr fun d _ => d.arrived_iff _
  · simp only [Datagram.arrived, take_length]
    exact readClientFrame_append hfull henc hr
  · have hend := readLength_nil hr clientFrameHeaderSize maxClientFrameSize
    rw [readClientFrame]
    rcases hres : r.readLength clientFrameHeaderSize maxClientFrameSize with ⟨err | length, next⟩
    · rw [hres] at hend
      exact congrArg _ (Except.error.inj hend)
    · rw [hres] at hend
      cases hend

include hfull in
theorem server_comesBack_iff (server : List (Datagram × Nat)) :
    ComesBack encodeBuffered (fun free r => r.readServerFrame readFullFrom free) (·.2) (fun d => d.1.frame d.2) server ↔
      ∀ d ∈ server, d.1.Plain := by
  rw [comesBack_iff (fun d => d.1.arrived d.2) (fun d frame r rest henc hr => ?_) (fun free r hr => ?_)
    encodeBuffered_ok 0]
  · exact forall₂_congr fun d _ => d.1.arrived_iff _
  · exact readServerFrame_append hfull d.2 henc hr
  have hend := readLength_nil hr serverFrameHeaderSize maxServerFrameSize
  rw [readServerFrame]
  rcases hres : r.readLength serverFrameHeaderSize maxServerFrameSize with ⟨err | length, next⟩
  · rw [hres] at hend
    exact congrArg _ (Except.error.inj hend)
  · rw [hres] at hend
    cases hend

end

/-- Frames survive the stream exactly if their endpoints can be told from the sixteen bytes. -/
theorem framesSurvive_iff (string : Socksaddr → String)
    (readFullFrom : Nat → Reader → Nat → List UInt8 × Option ReadError × Reader) (hfull : ReadsFull readFullFrom)
    (client : List ClientDatagram) (server : List (Datagram × Nat)) :
    FramesSurvive string readFullFrom client server ↔ (∀ d ∈ client, d.Plain) ∧ ∀ d ∈ server, d.1.Plain := by
  constructor
  · intro h
    exact ⟨(client_comesBack_iff hfull client).mp h.client, (server_comesBack_iff hfull server).mp h.server⟩
  · intro h
    exact ⟨(client_comesBack_iff hfull client).mpr h.1, (server_comesBack_iff hfull server).mpr h.2,
      readClientFrame_within hfull, readServerFrame_within hfull⟩

/-- An IPv4-mapped source and an IPv6 destination. -/
def plainDatagram : Datagram :=
  ⟨⟨.v6 #v[0, 0, 0, 0, 0, 0xffff, 0x102, 0x304], "", 53, ""⟩, ⟨.v6 #v[0x2001, 0xdb8, 0, 0, 0, 0, 0, 1], "", 53, ""⟩,
    [7, 8], rfl, rfl, by decide⟩

theorem framesSurvive_plain : FramesSurvive (·.fqdn) (fun _ r n => r.readFull n)
    [⟨plainDatagram, [65], by decide⟩] [(plainDatagram, 1), (plainDatagram, 9)] := by
  have hplain : plainDatagram.Plain := ⟨trivial, rfl, by decide⟩
  exact (framesSurvive_iff _ _ (fun _ _ _ _ => rfl) _ _).mpr ⟨by simpa using hplain, by simpa using hplain⟩

def loopback : Socksaddr := ⟨.v6 #v[0, 0, 0, 0, 0, 0, 0, 1], "", 53, ""⟩

def toLoopback : ClientDatagram := ⟨⟨loopback, loopback, [7], rfl, rfl, by decide⟩, [], by decide⟩

/-- The loopback address of IPv6 arrives as `0.0.0.1`. -/
theorem loopback_not_survived : ¬FramesSurvive (·.fqdn) (fun _ r n => r.readFull n) [toLoopback] [] := by
  intro h
  have hplain := (client_comesBack_iff (fun _ _ _ _ => rfl) [toLoopback]).mp h.client toLoopback mem_cons_self
  have hzero := hplain.1.2
  revert hzero
  decide

end SingBox.TrustTunnel
