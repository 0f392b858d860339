import SingBox.Route.Connection
import Mathlib.Data.List.Range

/-!
# What sniffing has read

Along the walk over the rules, what sniffing holds and what the connection still yields make up what the client
has sent.
-/
namespace SingBox.Route

open Lib.Strings List

variable {κ ρ : Type} {env : Env κ ρ}

/-! ## One sniff action -/

theorem peekStream_bytes (sniffers : List (Sniffer κ)) (earlier : Bytes) (reads : List StreamRead) (buffer : Bytes)
    (p : Peeked κ ρ) :
    (peekStream sniffers earlier reads buffer p).2.1 ++
        (peekStream sniffers earlier reads buffer p).2.2.flatMap StreamRead.bytes =
      buffer ++ reads.flatMap StreamRead.bytes := by
  induction reads generalizing buffer p with
  | nil => rfl
  | cons read reads ih =>
    cases read with
    | fail | noDeadline => rfl
    | piece bytes =>
      simp only [peekStream, flatMap_cons, StreamRead.bytes, ← append_assoc]
      split_ifs
      · exact ih (buffer ++ bytes) _
      · rfl

def Input.isStream : Input → Bool
  | .stream _ => true
  | .packets _ => false

/-- What a sniff action reads, behind the packets `new`, it takes from the front of the connection. -/
structure SniffOutcome.From (o : SniffOutcome κ ρ) (new : List (Bytes × Socksaddr)) (input : Input) : Prop where
  isStream : o.input.isStream = input.isStream
  bytes : o.newBytes ++ o.input.bytes = input.bytes
  datagrams : o.newPackets ++ o.lost.toList ++ o.input.datagrams = new ++ input.datagrams

theorem readPackets_from (action : SniffAction κ) (count : Nat) (reads : List PacketRead)
    (new : List (Bytes × Socksaddr)) (p : Peeked κ ρ) :
    (readPackets env action count reads new p).From new (.packets reads) := by
  induction reads generalizing new p with
  | nil =>
    unfold readPackets
    split_ifs
    all_goals exact ⟨rfl, rfl, by simp⟩
  | cons read reads ih =>
    unfold readPackets
    split_ifs
    · exact ⟨rfl, rfl, by simp⟩
    cases read with
    | timeout | fail | cancel => exact ⟨rfl, rfl, by simp [Input.datagrams, PacketRead.packets]⟩
    | packet bytes destination =>
      simp only
      split_ifs
      · obtain ⟨hstream, hbytes, hdatagrams⟩ := ih (new ++ [(bytes, destination)]) (peekPacket env action p bytes)
        exact ⟨hstream, hbytes, by simpa [Input.datagrams, PacketRead.packets] using hdatagrams⟩
      · exact ⟨rfl, rfl, by simp [Input.datagrams, PacketRead.packets]⟩

section
variable (env) (a : SniffAction κ) (m : Metadata κ ρ) (earlier : Bytes) (held : List Bytes)

theorem sniffAhead_stream (reads : List StreamRead) :
    sniffAhead env a m earlier held (.stream reads) = sniffNothing m (.stream reads) ∨
      sniffAhead env a m earlier held (.stream reads) = sniffStream env a m earlier reads := by
  simp only [sniffAhead]
  split_ifs <;> simp

theorem sniffAhead_packets (reads : List PacketRead) :
    sniffAhead env a m earlier held (.packets reads) = sniffNothing m (.packets reads) ∨
      sniffAhead env a m earlier held (.packets reads) = sniffPackets env a m held reads := by
  simp only [sniffAhead]
  split_ifs <;> simp

theorem sniffAhead_from (input : Input) : (sniffAhead env a m earlier held input).From [] input := by
  cases input with
  | stream reads =>
    rcases sniffAhead_stream env a m earlier held reads with h | h <;> rw [h]
    · exact ⟨rfl, rfl, rfl⟩
    · exact ⟨rfl, peekStream_bytes _ earlier reads [] _, rfl⟩
  | packets reads =>
    rcases sniffAhead_packets env a m earlier held reads with h | h <;> rw [h]
    · exact ⟨rfl, rfl, rfl⟩
    · unfold sniffPackets
      rcases peekHeld env a held ⟨m, none, none⟩ with ⟨_ | _, p⟩
      · exact readPackets_from a held.length reads [] p
      · exact ⟨rfl, rfl, rfl⟩

theorem WalkState.ahead_from (s : WalkState κ ρ) : (s.ahead env a).From [] s.input := sniffAhead_from env a _ _ _ _

end

/-! ## Rules that read once -/

/-- Nothing arrives while a sniff action waits. -/
def Input.Silent : Input → Prop
  | .stream (.piece _ :: _) => False
  | .packets (.packet _ _ :: _) => False
  | .packets (.cancel _ (some _) :: _) => False
  | _ => True

/-- The sniffers ask for nothing behind this packet. -/
def SniffAction.Enough (env : Env κ ρ) (a : SniffAction κ) (m : Metadata κ ρ) (bytes : Bytes) : Prop :=
  needMoreData (peekPacket env a ⟨m, none, none⟩ bytes).error = false

/-- A sniff rule behind which one buffer at most is held: it is skipped, or nothing arrives, or it is the first to read
the stream, or the first packet is enough for it or all that comes. -/
inductive WalkState.SniffsOne (env : Env κ ρ) (a : SniffAction κ) (s : WalkState κ ρ) : Prop
  | skipped (h : a.Skips s.metadata s.input)
  | silent (h : s.input.Silent)
  | stream {reads : List StreamRead} (hinput : s.input = .stream reads) (h : s.held.buffers = [])
  | held {b : PacketBuffer} (hheld : s.held.packetBuffers = [b]) (h : a.Enough env s.metadata b.bytes)
  | packet {bytes : Bytes} {destination : Socksaddr} {reads : List PacketRead} (hheld : s.held.packetBuffers = [])
      (hinput : s.input = .packets (.packet bytes destination :: reads))
      (h : a.Enough env s.metadata bytes ∨ (Input.packets reads).Silent)

/-- All sniff rules that the walk comes to and that match are such. -/
def SniffsOnce (env : Env κ ρ) : List (Rule κ ρ) → WalkState κ ρ → Prop
  | [], _ => True
  | rule :: rules, s =>
    (rule.matches? s.metadata.toView = true → ∀ a, rule.action = .sniff a → s.SniffsOne env a) ∧
      ∀ s', applyRule env rule s = .next s' → SniffsOnce env rules s'

/-- Nothing is read, and nothing lost. -/
structure SniffOutcome.Idle (o : SniffOutcome κ ρ) : Prop where
  bytes : o.newBytes = []
  packets : o.newPackets = []
  lost : o.lost = none

variable {a : SniffAction κ} {m : Metadata κ ρ} {input : Input}

theorem readPackets_silent {reads : List PacketRead} (h : (Input.packets reads).Silent) (env : Env κ ρ)
    (a : SniffAction κ) (count : Nat) (new : List (Bytes × Socksaddr)) (p : Peeked κ ρ) :
    (readPackets env a count reads new p).newPackets = new ∧ (readPackets env a count reads new p).lost = none := by
  unfold readPackets
  split_ifs
  · exact ⟨rfl, rfl⟩
  · match reads, h with
    | [], _ | .timeout _ :: _, _ | .fail _ :: _, _ | .cancel _ none :: _, _ => exact ⟨rfl, rfl⟩

theorem sniffAhead_silent (h : input.Silent) (earlier : Bytes) (held : List Bytes) :
    (sniffAhead env a m earlier held input).Idle := by
  cases input with
  | stream reads =>
    rcases sniffAhead_stream env a m earlier held reads with heq | heq <;> rw [heq]
    · exact ⟨rfl, rfl, rfl⟩
    · match reads, h with
      | [], _ | .fail _ :: _, _ | .noDeadline _ :: _, _ => exact ⟨rfl, rfl, rfl⟩
  | packets reads =>
    rcases sniffAhead_packets env a m earlier held reads with heq | heq <;> rw [heq]
    · exact ⟨rfl, rfl, rfl⟩
    · unfold sniffPackets
      rcases peekHeld env a held ⟨m, none, none⟩ with ⟨_ | _, p⟩
      · have hread := readPackets_silent h env a held.length [] p
        exact ⟨(append_eq_nil_iff.mp (readPackets_from a held.length reads [] p).bytes).1, hread.1, hread.2⟩
      · exact ⟨rfl, rfl, rfl⟩

/-- A packet that is held and is enough is all that is looked at. -/
theorem sniffAhead_enough {bytes : Bytes} (h : a.Enough env m bytes) (earlier : Bytes) (reads : List PacketRead) :
    (sniffAhead env a m earlier [bytes] (.packets reads)).Idle := by
  have hheld : (peekHeld env a [bytes] ⟨m, none, none⟩).1 = true := by
    simp only [SniffAction.Enough] at h
    simp [peekHeld, h]
  rcases sniffAhead_packets env a m earlier [bytes] reads with heq | heq <;> rw [heq]
  · exact ⟨rfl, rfl, rfl⟩
  · unfold sniffPackets
    rcases hpeek : peekHeld env a [bytes] ⟨m, none, none⟩ with ⟨_ | _, p⟩
    · rw [hpeek] at hheld
      cases hheld
    · exact ⟨rfl, rfl, rfl⟩

/-- Of a packet connection of which nothing is held, one packet is read if it is enough or the last to arrive. -/
theorem sniffAhead_one {bytes : Bytes} {destination : Socksaddr} {reads : List PacketRead}
    (h : a.Enough env m bytes ∨ (Input.packets reads).Silent) (earlier : Bytes) :
    (sniffAhead env a m earlier [] (.packets (.packet bytes destination :: reads))).newPackets.length ≤ 1 ∧
      (sniffAhead env a m earlier [] (.packets (.packet bytes destination :: reads))).lost = none := by
  rcases sniffAhead_packets env a m earlier [] (.packet bytes destination :: reads) with heq | heq <;> rw [heq]
  · exact ⟨Nat.zero_le 1, rfl⟩
  simp only [sniffPackets, peekHeld]
  unfold readPackets
  rw [if_neg (by decide)]
  dsimp only
  split_ifs with hmore
  · have hsilent := h.resolve_left fun henough => Bool.false_ne_true (henough.symm.trans hmore)
    have hread := readPackets_silent hsilent env a 0 [(bytes, destination)] (peekPacket env a ⟨m, none, none⟩ bytes)
    exact ⟨(congrArg List.length hread.1).le, hread.2⟩
  · exact ⟨le_rfl, rfl⟩

/-! ## Along the walk -/

/-- At most one buffer is held, of a stream or of packets. -/
def Held.One (stream : Bool) (h : Held) : Prop :=
  h = .empty ∨ (stream = true ∧ ∃ bytes, h = ⟨[⟨0, bytes⟩], [], 1, []⟩) ∨
    stream = false ∧ ∃ bytes destination, h = ⟨[], [⟨⟨0, bytes⟩, destination⟩], 1, []⟩

/-- The walk over a connection on which the client sends `sent`. -/
structure WalkState.Holds (sent : Input) (s : WalkState κ ρ) : Prop where
  isStream : s.input.isStream = sent.isStream
  bytes : s.held.buffers.flatMap Buffer.bytes ++ s.input.bytes = sent.bytes
  datagrams : s.held.packetBuffers.map PacketBuffer.datagram ++ s.input.datagrams = sent.datagrams
  one : s.held.One sent.isStream

theorem applyAction_sniff_state (action : SniffAction κ) (s : WalkState κ ρ) :
    (applyAction env (.sniff action) s).state.held = s.held.add (s.ahead env action) ∧
      (applyAction env (.sniff action) s).state.input = (s.ahead env action).input := by
  cases h : (s.ahead env action).fatal with
  | none =>
    rw [applyAction_sniff_none h]
    dsimp only [repairFakeIP]
    split_ifs <;> exact ⟨rfl, rfl⟩
  | some e =>
    rw [applyAction_sniff_some h]
    exact ⟨rfl, rfl⟩

variable {s s' : WalkState κ ρ} {sent : Input} {o : SniffOutcome κ ρ} {rules : List (Rule κ ρ)}

/-- Only a stream has bytes to read, and only a packet connection packets. -/
theorem SniffOutcome.From.reads (h : o.From [] input) :
    (o.newBytes ≠ [] → input.isStream = true) ∧ (o.newPackets ≠ [] → input.isStream = false) := by
  cases input with
  | stream =>
    have hnone := append_eq_nil_iff.mp (append_eq_nil_iff.mp h.datagrams).1
    exact ⟨fun _ => rfl, fun hnew => absurd hnone.1 hnew⟩
  | packets => exact ⟨fun hnew => absurd (append_eq_nil_iff.mp h.bytes).1 hnew, fun _ => rfl⟩

theorem WalkState.Holds.sniff (h : s.Holds sent) (ho : o.From [] s.input)
    (hone : o.Idle ∨ s.held = .empty ∧ o.newPackets.length ≤ 1 ∧ o.lost = none) (hheld : s'.held = s.held.add o)
    (hinput : s'.input = o.input) : s'.Holds sent := by
  have hstream : s'.input.isStream = sent.isStream := by rw [hinput, ho.isStream, h.isStream]
  have hbytes := h.bytes
  have hdatagrams := h.datagrams
  rw [← ho.bytes] at hbytes
  rw [← nil_append s.input.datagrams, ← ho.datagrams] at hdatagrams
  rcases hone with hidle | ⟨hempty, hlength, hlost⟩
  · have hadd : s.held.add o = s.held := by
      simp [Held.add, hidle.bytes, hidle.packets, hidle.lost, bufferPackets]
    rw [hadd] at hheld
    rw [hidle.bytes, nil_append] at hbytes
    rw [hidle.packets, hidle.lost] at hdatagrams
    exact ⟨hstream, by rw [hheld, hinput, hbytes], by rw [hheld, hinput]; exact hdatagrams, hheld ▸ h.one⟩
  rw [hempty] at hbytes hdatagrams hheld
  by_cases hnew : o.newBytes = []
  · rw [Held.add, if_neg (not_not.mpr hnew), hlost] at hheld
    match hpackets : o.newPackets, hlength with
    | [], _ =>
      refine ⟨hstream, ?_, ?_, .inl (by simp [hheld, hpackets, Held.empty, bufferPackets])⟩
      · simpa [hheld, hinput, hnew] using hbytes
      · simpa [hheld, hinput, hpackets, hlost, bufferPackets] using hdatagrams
    | [(bytes, destination)], _ =>
      have hsent := h.isStream.symm.trans (ho.reads.2 (by simp [hpackets]))
      refine ⟨hstream, ?_, ?_, .inr (.inr ⟨hsent, bytes, destination, ?_⟩)⟩
      · simpa [hheld, hinput, hnew] using hbytes
      · simpa [hheld, hinput, hpackets, hlost, bufferPackets, PacketBuffer.datagram] using hdatagrams
      · simp [hheld, hpackets, Held.empty, bufferPackets]
  · rw [Held.add, if_pos hnew] at hheld
    have hsent := h.isStream.symm.trans (ho.reads.1 hnew)
    have hpackets : o.newPackets = [] := by
      by_contra hpackets
      exact Bool.false_ne_true ((ho.reads.2 hpackets).symm.trans (ho.reads.1 hnew))
    refine ⟨hstream, by simpa [hheld, hinput] using hbytes, ?_, .inr (.inl ⟨hsent, _, hheld⟩)⟩
    simpa [hheld, hinput, hpackets, hlost] using hdatagrams

theorem WalkState.SniffsOne.reads (hone : s.SniffsOne env a) (h : s.Holds sent) :
    (s.ahead env a).Idle ∨ s.held = .empty ∧ (s.ahead env a).newPackets.length ≤ 1 ∧ (s.ahead env a).lost = none := by
  cases hone with
  | skipped hskips =>
    have hnothing : ahead env a s = sniffNothing s.metadata s.input := sniffAhead_skips hskips _ _
    exact .inl (hnothing ▸ ⟨rfl, rfl, rfl⟩)
  | silent hsilent => exact .inl (sniffAhead_silent hsilent _ _)
  | stream hinput hnone =>
    have hsent : sent.isStream = true := by rw [← h.isStream, hinput]; rfl
    rcases h.one with hempty | ⟨_, _, hheld⟩ | ⟨hpackets, _⟩
    · have hdatagrams := (s.ahead_from env a).datagrams
      rw [hinput] at hdatagrams
      obtain ⟨hpackets, hlost⟩ := append_eq_nil_iff.mp (append_eq_nil_iff.mp hdatagrams).1
      exact .inr ⟨hempty, by simp [hpackets], Option.toList_eq_nil_iff.mp hlost⟩
    · simp [hheld] at hnone
    · exact absurd (hpackets.symm.trans hsent) Bool.false_ne_true
  | held hheld henough =>
    rcases h.one with hone | ⟨_, _, hone⟩ | ⟨hsent, _⟩
    · simp [hone, Held.empty] at hheld
    · simp [hone] at hheld
    · cases hinput : s.input with
      | stream =>
        rw [← h.isStream, hinput] at hsent
        cases hsent
      | packets reads =>
        rw [WalkState.ahead, hheld, hinput]
        exact .inl (sniffAhead_enough henough _ reads)
  | packet hheld hinput hlast =>
    have hsent : sent.isStream = false := by rw [← h.isStream, hinput]; rfl
    rcases h.one with hempty | ⟨hstream, _⟩ | ⟨_, _, _, hone⟩
    · refine .inr ⟨hempty, ?_⟩
      rw [WalkState.ahead, hheld, hinput]
      exact sniffAhead_one hlast _
    · exact absurd (hsent.symm.trans hstream) Bool.false_ne_true
    · simp [hone] at hheld

theorem WalkState.Holds.rule (h : s.Holds sent) (rule : Rule κ ρ)
    (hone : rule.matches? s.metadata.toView = true → ∀ a, rule.action = .sniff a → s.SniffsOne env a) :
    (applyRule env rule s).state.Holds sent := by
  rcases applyRule_cases env rule s with ⟨a, ⟨hmatch, ha⟩, heq⟩ | ⟨_, m, heq⟩
  · rw [heq]
    exact h.sniff (s.ahead_from env a) ((hone hmatch a ha).reads h) (applyAction_sniff_state a s).1
      (applyAction_sniff_state a s).2
  · rw [heq]
    exact ⟨h.isStream, h.bytes, h.datagrams, h.one⟩

theorem WalkState.Holds.walk (h : s.Holds sent) (honce : SniffsOnce env rules s) :
    (walk env rules s).state.Holds sent := by
  induction rules generalizing s with
  | nil => exact h
  | cons rule rules ih =>
    have hrule : (applyRule env rule s).state.Holds sent := h.rule rule honce.1
    rw [Route.walk]
    cases hs : applyRule env rule s with
    | next s' =>
      rw [hs] at hrule
      exact ih hrule (honce.2 s' hs)
    | select | fail =>
      rw [hs] at hrule
      exact hrule

end SingBox.Route
