import SingBox.Lib.Heap
import SingBox.Lib.Transition
import Mathlib.Algebra.BigOperators.Group.List.Basic
import Mathlib.Algebra.GroupWithZero.Nat

/-!
# The upload queue

The posts of a packet-up session are pushed into a channel as they come in, and the reader
of the session puts them in the order of their sequence numbers in a heap. A packet that
does not fit the reader's buffer goes back into the heap with what is left of it.
-/
namespace SingBox.XHTTP

open SingBox.Lib List Heap

/-- A packet of a packet-up session. -/
structure Packet where
  payload : List UInt8
  seq : UInt64
  deriving DecidableEq

/-- The key `uploadHeap.Less` compares. -/
def Packet.key (p : Packet) : Nat := p.seq.toNat

inductive ReadError where
  | eof
  | tooLarge
  deriving DecidableEq

/-- Where the reader stands in `Read`; the number is the length of its buffer. -/
inductive Reading where
  | idle
  | popping (size : Nat)
  | receiving (size : Nat)
  deriving DecidableEq

/-- `uploadQueue`, and what its Reads have returned. -/
structure UploadQueue where
  maxPackets : Nat
  pushedPackets : List Packet
  heap : List Packet
  nextSeq : UInt64
  closed : Bool
  reading : Reading
  reads : List (List UInt8 × Option ReadError)
  deriving DecidableEq

inductive Label where
  | push (p : Packet)
  | read (size : Nat)
  | advance
  | done
  | close
  deriving DecidableEq

open UploadQueue

open Packet

namespace UploadQueue

variable (q : UploadQueue)

def new (maxPackets : Nat) : UploadQueue := ⟨maxPackets, [], [], 0, false, .idle, []⟩

def answer (bytes : List UInt8) (err : Option ReadError) : UploadQueue :=
  { q with reading := .idle, reads := q.reads ++ [(bytes, err)] }

/-- The channel takes a packet: there is room in it, or the reader waits for one. -/
def accepts : Bool :=
  q.pushedPackets.length < q.maxPackets || q.pushedPackets.isEmpty && q.reading matches .receiving _

/-- A pass of the loop of `Read` with the packet `p`, which left `rest` in the heap. -/
def take (size : Nat) (p : Packet) (rest : List Packet) : UploadQueue :=
  if p.seq = q.nextSeq then
    if size < p.payload.length then
      { q with heap := push key rest { p with payload := p.payload.drop size } }.answer
        (p.payload.take size) none
    else { q with heap := rest, nextSeq := p.seq + 1 }.answer p.payload none
  else if q.nextSeq < p.seq then
    if q.maxPackets < rest.length then { q with heap := rest }.answer [] (some .tooLarge)
    else { q with heap := push key rest p, reading := .receiving size }
  else { q with heap := rest }

def step : Label → Option UploadQueue
  | .push p =>
    if !q.closed && q.accepts then some { q with pushedPackets := q.pushedPackets ++ [p] } else none
  | .read size =>
    match q.reading with
    | .idle =>
      if q.closed then some (q.answer [] (some .eof))
      else some { q with reading := if q.heap.isEmpty then .receiving size else .popping size }
    | _ => none
  | .advance =>
    match q.reading with
    | .idle => none
    | .popping size =>
      match pop key q.heap with
      | none => some (q.answer [] none)
      | some (p, rest) => some (q.take size p rest)
    | .receiving size =>
      match q.pushedPackets with
      | [] => none
      | p :: packets =>
        some { q with
          pushedPackets := packets
          heap := push key q.heap p
          reading := .popping size }
  | .done =>
    match q.reading with
    | .receiving _ => if q.closed then some (q.answer [] (some .eof)) else none
    | _ => none
  | .close => if q.closed then none else some { q with closed := true, pushedPackets := [] }

/-- All that the Reads have returned. -/
def bytes : List UInt8 := q.reads.flatMap Prod.fst

@[simp] theorem bytes_answer (b : List UInt8) (err : Option ReadError) : (q.answer b err).bytes = q.bytes ++ b := by
  simp [answer, bytes]

end UploadQueue

def uploads (maxPackets : Nat) : System UploadQueue Label where
  init q := q = .new maxPackets
  step := step

namespace UploadQueue

variable (q : UploadQueue)

/-- At most `maxPackets` packets wait for one that is missing. -/
def fits : Bool :=
  match q.reading, q.heap.head? with
  | .popping _, some p => p.seq ≤ q.nextSeq || q.heap.length ≤ q.maxPackets
  | _, _ => true

/-- A packet is read in part only if no other copy of it is in the heap. -/
def single : Bool :=
  match q.reading, q.heap.head? with
  | .popping size, some p =>
    p.seq != q.nextSeq || p.payload.length ≤ size || q.heap.countP (fun p => p.seq == q.nextSeq) == 1
  | _, _ => true

/-- What is posted: the packets of `data` up to `n`, in any order and any number of times, while the
reader reads into buffers that are not empty. -/
def posts (n : Nat) (data : Nat → List UInt8) : Label → Bool
  | .push p => p.seq.toNat < n && p.payload == data p.seq.toNat
  | .read size => 0 < size
  | .advance => q.fits
  | _ => true

end UploadQueue

/-- What was posted in the order of the sequence numbers. -/
def posted (n : Nat) (data : Nat → List UInt8) : List UInt8 := (List.range n).flatMap data

/-- The reader alone, as long as it does not read in part what is there twice. -/
def reader : System UploadQueue Label where
  init _ := True
  step q l :=
    match l with
    | .read size => if 0 < size then q.step l else none
    | .advance => if q.fits && q.single then q.step l else none
    | _ => none

/-! ### What the queue holds -/

section
variable (n : Nat) (data : Nat → List UInt8)

/-- The packets in `arrived` are there until they have been read. -/
def Kept (arrived : Nat → Prop) (nextSeq : UInt64) (packets : List Packet) : Prop :=
  ∀ k < n, nextSeq.toNat ≤ k → arrived k → ∃ p ∈ packets, p.seq.toNat = k

/-- The first `off` bytes of the packet that is next have been read, and then the rest of it is the
only copy in the heap. -/
structure Stored (heap : List Packet) (nextSeq : UInt64) (off : Nat) : Prop where
  ordered : Heap.Ordered key heap
  known : ∀ p ∈ heap, p.seq.toNat < n ∧ p.payload = (data p.seq.toNat).drop (if p.seq = nextSeq then off else 0)
  sole : 0 < off → heap.countP (fun p => p.seq == nextSeq) = 1
  next_le : nextSeq.toNat ≤ n

structure UploadQueue.Holds (arrived : Nat → Prop) (q : UploadQueue) (off : Nat) : Prop where
  stored : Stored n data q.heap q.nextSeq off
  pushed : ∀ p ∈ q.pushedPackets, p.seq.toNat < n ∧ p.payload = data p.seq.toNat
  bytes : q.bytes = posted q.nextSeq.toNat data ++ (data q.nextSeq.toNat).take off
  waiting : ∀ size, q.reading = .receiving size → ∀ p ∈ q.heap, q.nextSeq < p.seq
  nonempty : ∀ size, q.reading = .popping size ∨ q.reading = .receiving size → 0 < size
  clean : q.closed = false → ∀ r ∈ q.reads, r.2 = none
  kept : q.closed = false → Kept n arrived q.nextSeq (q.heap ++ q.pushedPackets)

end

section
variable {n : Nat} {data : Nat → List UInt8} {arrived : Nat → Prop} {q q' : UploadQueue} {off size : Nat} {p : Packet}
  {heap rest packets : List Packet} {nextSeq nextSeq' : UInt64}

theorem posted_succ (n : Nat) (data : Nat → List UInt8) : posted (n + 1) data = posted n data ++ data n := by
  simp [posted, range_succ]

theorem posted_prefix {k : Nat} (hk : k ≤ n) : posted k data <+: posted n data := by
  induction hk with
  | refl => exact prefix_rfl
  | step _ ih =>
    rw [posted_succ]
    exact ih.trans (prefix_append _ _)

theorem Kept.of_heap {heap' : List Packet} (h : Kept n arrived nextSeq (heap ++ packets))
    (hle : nextSeq.toNat ≤ nextSeq'.toNat)
    (hheap : ∀ b ∈ heap, nextSeq'.toNat ≤ b.seq.toNat → ∃ b' ∈ heap', b'.seq = b.seq) :
    Kept n arrived nextSeq' (heap' ++ packets) := by
  intro k hk hge harrived
  obtain ⟨b, hb, rfl⟩ := h k hk (Nat.le_trans hle hge) harrived
  rcases mem_append.mp hb with hb | hb
  · obtain ⟨b', hb', hseq⟩ := hheap b hb hge
    exact ⟨b', mem_append_left _ hb', congrArg _ hseq⟩
  · exact ⟨b, mem_append_right _ hb, rfl⟩

theorem no_other_copy (hperm : heap.Perm (p :: rest)) (hseq : p.seq = nextSeq)
    (hcount : heap.countP (fun p => p.seq == nextSeq) = 1) : ∀ b ∈ rest, b.seq ≠ nextSeq := by
  intro b hb he
  rw [hperm.countP_eq, countP_cons_of_pos (by simp [hseq])] at hcount
  have hpos : 0 < rest.countP fun p => p.seq == nextSeq := countP_pos_iff.mpr ⟨b, hb, by simp [he]⟩
  omega

namespace Stored

section
variable (h : Stored n data heap nextSeq off)
include h

theorem exists_next (hoff : 0 < off) : ∃ p ∈ heap, p.seq = nextSeq := by
  obtain ⟨p, hp, hseq⟩ := countP_pos_iff.mp (by rw [h.sole hoff]; exact Nat.one_pos)
  exact ⟨p, hp, beq_iff_eq.mp hseq⟩

theorem next_lt (hoff : 0 < off) : nextSeq.toNat < n := by
  obtain ⟨p, hp, rfl⟩ := h.exists_next hoff
  exact (h.known p hp).1

variable (hperm : heap.Perm (p :: rest))
include hperm

theorem of_rest {b : Packet} (hb : b ∈ rest) : b.seq.toNat < n ∧
    b.payload = (data b.seq.toNat).drop (if b.seq = nextSeq then off else 0) :=
  h.known b (hperm.mem_iff.mpr (mem_cons_of_mem _ hb))

theorem payload (hseq : p.seq = nextSeq) : nextSeq.toNat < n ∧ p.payload = (data nextSeq.toNat).drop off := by
  simpa [hseq] using h.known p (hperm.mem_iff.mpr mem_cons_self)

variable (hrest : Heap.Ordered key rest)
include hrest

theorem partial_read (hseq : p.seq = nextSeq) (hsole : heap.countP (fun p => p.seq == nextSeq) = 1) :
    Stored n data (push key rest { p with payload := p.payload.drop size }) nextSeq (off + size) := by
  obtain ⟨hlt, hpayload⟩ := h.payload hperm hseq
  have hpush := push_perm key rest { p with payload := p.payload.drop size }
  have hother := no_other_copy hperm hseq hsole
  refine ⟨hrest.push _, fun b hb => ?_, fun _ => ?_, h.next_le⟩
  · rcases mem_cons.mp (hpush.mem_iff.mp hb) with rfl | hb
    · refine ⟨hseq ▸ hlt, ?_⟩
      rw [if_pos hseq, hpayload, hseq, drop_drop]
    · have hb' := h.of_rest hperm hb
      refine ⟨hb'.1, ?_⟩
      rw [if_neg (hother b hb), hb'.2, if_neg (hother b hb)]
  · rw [hpush.countP_eq, countP_cons_of_pos (by simp [hseq])]
    rw [hperm.countP_eq, countP_cons_of_pos (by simp [hseq])] at hsole
    exact hsole

theorem whole_read (hseq : p.seq = nextSeq) (hsucc : (p.seq + 1).toNat = nextSeq.toNat + 1) :
    Stored n data rest (p.seq + 1) 0 := by
  obtain ⟨hlt, _⟩ := h.payload hperm hseq
  refine ⟨hrest, fun b hb => ?_, fun hoff => absurd hoff (Nat.lt_irrefl 0), hsucc ▸ hlt⟩
  have hb' := h.of_rest hperm hb
  refine ⟨hb'.1, ?_⟩
  rw [ite_self]
  by_cases he : b.seq = nextSeq
  · -- another copy: then nothing of the packet had been read
    rcases Nat.eq_zero_or_pos off with rfl | hoff
    · simpa using hb'.2
    · exact absurd he (no_other_copy hperm hseq (h.sole hoff) b hb)
  · simpa [he] using hb'.2

theorem dropped (hlt : p.seq < nextSeq) : Stored n data rest nextSeq off := by
  have hne : p.seq ≠ nextSeq := fun he => absurd (he ▸ hlt) (UInt64.lt_irrefl _)
  refine ⟨hrest, fun b hb => h.of_rest hperm hb, fun hoff => ?_, h.next_le⟩
  have hcount := h.sole hoff
  rwa [hperm.countP_eq, countP_cons_of_neg (by simp [hne])] at hcount

end

end Stored

namespace UploadQueue.Holds

section
variable (h : q.Holds n data arrived off)
include h

/-- What has been read is a beginning of what was posted. -/
theorem read_prefix : q.bytes <+: posted n data := by
  rw [h.bytes]
  rcases Nat.eq_zero_or_pos off with rfl | hoff
  · rw [take_zero, append_nil]
    exact posted_prefix h.stored.next_le
  · have hsucc : posted (q.nextSeq.toNat + 1) data <+: posted n data := posted_prefix (h.stored.next_lt hoff)
    rw [posted_succ] at hsucc
    exact ((prefix_append_right_inj _).mpr ⟨_, take_append_drop _ _⟩).trans hsucc

/-- While the reader waits for a packet, nothing of the next one has been read. -/
theorem off_eq_zero (hreading : q.reading = .receiving size) : off = 0 := by
  by_contra hne
  obtain ⟨p, hp, hseq⟩ := h.stored.exists_next (Nat.pos_of_ne_zero hne)
  have hlt := h.waiting size hreading p hp
  rw [hseq] at hlt
  exact absurd hlt (UInt64.lt_irrefl _)

theorem answer {off' : Nat} {bytes : List UInt8} {err : Option ReadError} (hstored : Stored n data heap nextSeq off')
    (hbytes : q.bytes ++ bytes = posted nextSeq.toNat data ++ (data nextSeq.toNat).take off')
    (herr : q.closed = false → err = none)
    (hkept : q.closed = false → Kept n arrived nextSeq (heap ++ q.pushedPackets)) :
    ({ q with heap := heap, nextSeq := nextSeq }.answer bytes err).Holds n data arrived off' where
  stored := hstored
  pushed := h.pushed
  bytes := by
    rw [bytes_answer]
    exact hbytes
  waiting size hreading := by cases hreading
  nonempty size hreading := by rcases hreading with hreading | hreading <;> cases hreading
  clean hclosed := forall_mem_append.mpr ⟨h.clean hclosed, forall_mem_singleton.mpr (herr hclosed)⟩
  kept := hkept

theorem empty {err : Option ReadError} (herr : q.closed = false → err = none) :
    (q.answer [] err).Holds n data arrived off :=
  h.answer h.stored ((append_nil _).trans h.bytes) herr h.kept

/-- A pass of the loop with the first packet of the heap. -/
theorem take (hn : n < 2 ^ 64) (hreading : q.reading = .popping size) (hperm : q.heap.Perm (p :: rest))
    (hrest : Heap.Ordered key rest) (hmin : ∀ b ∈ rest, p.key ≤ b.key)
    (hfits : q.nextSeq < p.seq → ¬q.maxPackets < rest.length)
    (hsole : p.seq = q.nextSeq → size < p.payload.length → q.heap.countP (fun p => p.seq == q.nextSeq) = 1) :
    ∃ off', (q.take size p rest).Holds n data arrived off' := by
  have hmem : ∀ b ∈ q.heap, b = p ∨ b ∈ rest := fun b hb => mem_cons.mp (hperm.mem_iff.mp hb)
  unfold UploadQueue.take
  split
  next hseq =>
    obtain ⟨hlt, hpayload⟩ := h.stored.payload hperm hseq
    split
    next hsize =>
      have hpush := push_perm key rest { p with payload := p.payload.drop size }
      refine ⟨off + size, h.answer (h.stored.partial_read hperm hrest hseq (hsole hseq hsize)) ?_ (fun _ => rfl)
        fun hclosed => (h.kept hclosed).of_heap (Nat.le_refl _) fun b hb _ => ?_⟩
      · rw [h.bytes, hpayload, append_assoc, ← take_add]
      · rcases hmem b hb with rfl | hb
        · exact ⟨_, hpush.mem_iff.mpr mem_cons_self, rfl⟩
        · exact ⟨b, hpush.mem_iff.mpr (mem_cons_of_mem _ hb), rfl⟩
    · have hsucc : (p.seq + 1).toNat = q.nextSeq.toNat + 1 := by
        rw [hseq, UInt64.toNat_add, UInt64.toNat_one, Nat.mod_eq_of_lt (by omega)]
      refine ⟨0, h.answer (h.stored.whole_read hperm hrest hseq hsucc) ?_ (fun _ => rfl)
        fun hclosed => (h.kept hclosed).of_heap (by omega) fun b hb hge => ?_⟩
      · rw [hsucc, posted_succ, h.bytes, hpayload, take_zero, append_nil, append_assoc, take_append_drop]
      · rcases hmem b hb with rfl | hb
        · rw [hsucc, hseq] at hge
          omega
        · exact ⟨b, hb, rfl⟩
  next hne =>
    refine ⟨off, ?_⟩
    split
    next hlt =>
      -- the packet that comes next is missing
      rw [if_neg (hfits hlt)]
      have hpush : (push key rest p).Perm q.heap := (push_perm key rest p).trans hperm.symm
      refine ⟨⟨hrest.push p, fun b hb => h.stored.known b (hpush.mem_iff.mp hb), fun hoff => ?_, h.stored.next_le⟩,
        h.pushed, h.bytes, fun _ _ b hb => ?_, fun size' hreading' => ?_, h.clean, fun hclosed =>
        (h.kept hclosed).of_heap (Nat.le_refl _) fun b hb _ => ⟨b, hpush.mem_iff.mpr hb, rfl⟩⟩
      · rw [hpush.countP_eq]
        exact h.stored.sole hoff
      · rw [UInt64.lt_iff_toNat_lt] at hlt ⊢
        rcases hmem b (hpush.mem_iff.mp hb) with rfl | hb
        · exact hlt
        · exact Nat.lt_of_lt_of_le hlt (hmin b hb)
      · rcases hreading' with hreading' | hreading' <;> cases hreading'
        exact h.nonempty size (.inl hreading)
    next hle =>
      have hlt : p.seq.toNat < q.nextSeq.toNat := by
        rw [UInt64.lt_iff_toNat_lt] at hle
        have : p.seq.toNat ≠ q.nextSeq.toNat := fun he => hne (UInt64.toNat_inj.mp he)
        omega
      refine ⟨h.stored.dropped hperm hrest (UInt64.lt_iff_toNat_lt.mpr hlt), h.pushed, h.bytes, fun _ hreading' => ?_,
        h.nonempty, h.clean, fun hclosed => (h.kept hclosed).of_heap (Nat.le_refl _) fun b hb hge => ?_⟩
      · cases hreading.symm.trans hreading'
      · rcases hmem b hb with rfl | hb
        · exact absurd hlt (Nat.not_lt.mpr hge)
        · exact ⟨b, hb, rfl⟩

/-- A packet comes from the channel into the heap. -/
theorem receive (hreading : q.reading = .receiving size) (hpackets : q.pushedPackets = p :: packets) :
    ({ q with pushedPackets := packets, heap := push key q.heap p, reading := .popping size }).Holds
      n data arrived off := by
  have hoff := h.off_eq_zero hreading
  subst hoff
  have hpush := push_perm key q.heap p
  have hpushed := h.pushed
  rw [hpackets, forall_mem_cons] at hpushed
  refine ⟨⟨h.stored.ordered.push _, fun b hb => ?_, fun hoff => absurd hoff (Nat.lt_irrefl 0), h.stored.next_le⟩,
    hpushed.2, h.bytes, fun _ hreading' => ?_, fun size' hreading' => ?_, h.clean, fun hclosed j hj hle harrived => ?_⟩
  · rcases mem_cons.mp (hpush.mem_iff.mp hb) with rfl | hb
    · rw [ite_self]
      exact hpushed.1
    · exact h.stored.known b hb
  · cases hreading'
  · rcases hreading' with hreading' | hreading' <;> cases hreading'
    exact h.nonempty size (.inr hreading)
  · obtain ⟨b, hb, hbj⟩ := h.kept hclosed j hj hle harrived
    refine ⟨b, ?_, hbj⟩
    rw [hpackets, mem_append, mem_cons] at hb
    rw [mem_append]
    rcases hb with hb | rfl | hb
    · exact .inl (hpush.mem_iff.mpr (mem_cons_of_mem _ hb))
    · exact .inl (hpush.mem_iff.mpr mem_cons_self)
    · exact .inr hb

end

end UploadQueue.Holds

namespace UploadQueue

/-- What a pass of the loop of `Read` can be. -/
theorem advance_cases (h : Heap.Ordered key q.heap) (hfits : q.fits = true)
    (hstep : q.step .advance = some q') :
    (∃ size, q.reading = .popping size ∧ q.heap = [] ∧ q' = q.answer [] none) ∨
    (∃ size p rest, q.reading = .popping size ∧ q.heap.head? = some p ∧ q.heap.Perm (p :: rest) ∧
      Heap.Ordered key rest ∧ (∀ b ∈ rest, p.key ≤ b.key) ∧
      (q.nextSeq < p.seq → ¬q.maxPackets < rest.length) ∧ q' = q.take size p rest) ∨
    ∃ size p packets, q.reading = .receiving size ∧ q.pushedPackets = p :: packets ∧
      q' = { q with pushedPackets := packets, heap := push key q.heap p, reading := .popping size } := by
  simp only [step] at hstep
  split at hstep
  · cases hstep
  next size hreading =>
    by_cases hempty : q.heap = []
    · have hpop : pop key q.heap = none := by
        rw [hempty]
        rfl
      rw [hpop] at hstep
      cases hstep
      exact .inl ⟨size, hreading, hempty, rfl⟩
    · obtain ⟨rest, hpop, hperm, hrest, hmin⟩ := h.pop hempty
      have hhead : q.heap.head? = some (q.heap.head hempty) := List.head?_eq_some_head hempty
      rw [hpop] at hstep
      cases hstep
      refine .inr (.inl ⟨size, _, rest, hreading, hhead, hperm, hrest, hmin, fun hlt => ?_, rfl⟩)
      have hlen : q.heap.length ≤ q.maxPackets := by
        simpa [fits, hreading, hhead, UInt64.not_le.mpr hlt] using hfits
      rw [hperm.length_eq, length_cons] at hlen
      omega
  next size hreading =>
    split at hstep
    · cases hstep
    next p packets hpackets =>
      cases hstep
      exact .inr (.inr ⟨size, p, packets, hreading, hpackets, rfl⟩)

theorem Holds.advance (h : q.Holds n data arrived off) (hn : n < 2 ^ 64) (hfits : q.fits = true)
    (hsole : q.single = true) (hstep : q.step .advance = some q') : ∃ off', q'.Holds n data arrived off' := by
  rcases advance_cases h.stored.ordered hfits hstep with ⟨size, hreading, _, rfl⟩ |
    ⟨size, p, rest, hreading, hhead, hperm, hrest, hmin, hlen, rfl⟩ | ⟨size, p, packets, hreading, hpackets, rfl⟩
  · exact ⟨off, h.empty fun _ => rfl⟩
  · refine h.take hn hreading hperm hrest hmin hlen fun hseq hsize => ?_
    simpa [single, hreading, hhead, hseq, Nat.not_le.mpr hsize] using hsole
  · exact ⟨off, h.receive hreading hpackets⟩

end UploadQueue

namespace UploadQueue.Holds

theorem read (h : q.Holds n data arrived off) (hsize : 0 < size) (hstep : q.step (.read size) = some q') :
    q'.Holds n data arrived off := by
  cases hreading : q.reading with
  | idle =>
    simp only [step, hreading] at hstep
    split at hstep
    next hclosed =>
      cases hstep
      refine h.empty fun hopen => ?_
      rw [hclosed] at hopen
      cases hopen
    · cases hstep
      refine ⟨h.stored, h.pushed, h.bytes, ?_, ?_, h.clean, h.kept⟩
      · intro size' hreading' p hp
        change p ∈ q.heap at hp
        cases hempty : q.heap.isEmpty with
        | true =>
          rw [isEmpty_iff.mp hempty] at hp
          cases hp
        | false => simp [hempty] at hreading'
      · intro size' hreading'
        cases hempty : q.heap.isEmpty <;> simp [hempty] at hreading' <;> exact hreading' ▸ hsize
  | popping | receiving => simp [step, hreading] at hstep

theorem push (h : q.Holds n data arrived off) (hposts : q.posts n data (.push p) = true)
    (hstep : q.step (.push p) = some q') : q'.Holds n data (fun k => k = p.seq.toNat ∨ arrived k) off := by
  simp only [posts, Bool.and_eq_true, decide_eq_true_eq, beq_iff_eq] at hposts
  simp only [step] at hstep
  split at hstep
  · cases hstep
    refine ⟨h.stored, ?_, h.bytes, h.waiting, h.nonempty, h.clean, ?_⟩
    · exact forall_mem_append.mpr ⟨h.pushed, forall_mem_singleton.mpr hposts⟩
    intro hclosed k hk hle harrived
    rcases harrived with rfl | harrived
    · exact ⟨p, by simp, rfl⟩
    · obtain ⟨b, hb, hbk⟩ := h.kept hclosed k hk hle harrived
      refine ⟨b, ?_, hbk⟩
      rw [← append_assoc]
      exact mem_append_left _ hb
  · cases hstep

theorem new (n : Nat) (data : Nat → List UInt8) (maxPackets : Nat) :
    (UploadQueue.new maxPackets).Holds n data (fun _ => False) 0 := by
  refine ⟨⟨?_, ?_, ?_, ?_⟩, ?_, ?_, ?_, ?_, ?_, ?_⟩ <;>
    simp [UploadQueue.new, Heap.Ordered, Heap.OrderedTo, UploadQueue.bytes, posted, Kept]

theorem mono {arrived' : Nat → Prop} (h : q.Holds n data arrived off) (himp : ∀ k, arrived' k → arrived k) :
    q.Holds n data arrived' off :=
  { h with kept := fun hclosed k hk hle harrived => h.kept hclosed k hk hle (himp k harrived) }

end UploadQueue.Holds

/-- The packet with number `k` was pushed. -/
def Pushed (past : List (UploadQueue × Label)) (k : Nat) : Prop :=
  ∃ e ∈ past, ∃ p : Packet, e.2 = .push p ∧ p.seq.toNat = k

theorem holds_run (hn : n < 2 ^ 64) {maxPackets : Nat} {past : List (UploadQueue × Label)}
    (hrun : (uploads maxPackets).Run past q)
    (hal : System.Along (fun q l => q.posts n data l = true ∧ (l = .advance → q.single = true)) past) :
    ∃ off, q.Holds n data (Pushed past) off := by
  refine hrun.invariant_past (I := fun past q => ∃ off, q.Holds n data (Pushed past) off) ?_ ?_ hal
  · rintro _ rfl
    refine ⟨0, (UploadQueue.Holds.new n data maxPackets).mono ?_⟩
    rintro k ⟨e, he, _⟩
    cases he
  · rintro past q q' l - ⟨off, h⟩ ⟨hposts, hsingle⟩ hstep
    -- a step other than a push leaves what arrived as it is
    have hsame : (∀ p, l ≠ .push p) → ∀ k, Pushed ((q, l) :: past) k → Pushed past k := by
      rintro hne k ⟨e, he, p, hp, hk⟩
      rcases mem_cons.mp he with rfl | he
      · exact absurd hp (hne p)
      · exact ⟨e, he, p, hp, hk⟩
    cases l with
    | push p =>
      refine ⟨off, (h.push hposts hstep).mono ?_⟩
      rintro k ⟨e, he, p', hp, hk⟩
      rcases mem_cons.mp he with rfl | he
      · cases hp
        exact .inl hk.symm
      · exact .inr ⟨e, he, p', hp, hk⟩
    | read size =>
      exact ⟨off, (h.read (by simpa [posts] using hposts) hstep).mono (hsame (by simp))⟩
    | advance =>
      obtain ⟨off', h'⟩ := h.advance hn hposts (hsingle rfl) hstep
      exact ⟨off', h'.mono (hsame (by simp))⟩
    | done =>
      simp only [uploads, step] at hstep
      split at hstep
      · split at hstep
        next hclosed =>
          cases hstep
          refine ⟨off, (h.empty fun hopen => ?_).mono (hsame (by simp))⟩
          rw [hclosed] at hopen
          cases hopen
        · cases hstep
      · cases hstep
    | close =>
      simp only [uploads, step] at hstep
      split at hstep
      · cases hstep
      cases hstep
      refine ⟨off, ⟨h.stored, ?_, h.bytes, h.waiting, h.nonempty, ?_, ?_⟩⟩
      · intro p hp
        cases hp
      · intro hopen
        cases hopen
      · intro hopen
        cases hopen

/-! ### The reader gets through -/

/-- What is left to read, with a weight for each packet. -/
def weight (base : Nat) (packets : List Packet) : Nat := (packets.map fun p => 2 * p.payload.length + base).sum

theorem weight_cons (base : Nat) (p : Packet) (packets : List Packet) :
    weight base (p :: packets) = 2 * p.payload.length + base + weight base packets := by
  simp [weight]

theorem weight_perm {base : Nat} {packets packets' : List Packet} (h : packets.Perm packets') :
    weight base packets = weight base packets' := (h.map _).sum_eq

theorem isEmpty_of_perm (h : packets.Perm (p :: rest)) : packets.isEmpty = false := by
  rw [isEmpty_eq_false_iff]
  rintro rfl
  exact absurd h.symm.eq_nil (cons_ne_nil _ _)

namespace UploadQueue

def rank (q : UploadQueue) : Nat :=
  weight 4 q.heap + weight 6 q.pushedPackets +
    match q.reading with
    | .idle => 2
    | .popping _ => if q.heap.isEmpty then 3 else 1
    | .receiving _ => 0

theorem rank_take (hreading : q.reading = .popping size) (hsize : 0 < size)
    (hperm : q.heap.Perm (p :: rest)) (hfits : q.nextSeq < p.seq → ¬q.maxPackets < rest.length) :
    (q.take size p rest).rank < q.rank := by
  have hne := isEmpty_of_perm hperm
  have hq : q.rank = 2 * p.payload.length + 4 + weight 4 rest + weight 6 q.pushedPackets + 1 := by
    simp only [rank, hreading, hne, weight_perm hperm, weight_cons, Bool.false_eq_true, if_false]
  rw [hq]
  unfold take
  split
  · split
    next hlt =>
      simp only [rank, answer, weight_perm (push_perm key _ _), weight_cons, length_drop]
      omega
    · simp only [rank, answer]
      omega
  · split
    next hlt =>
      rw [if_neg (hfits hlt)]
      simp only [rank, weight_perm (push_perm key _ _), weight_cons]
      omega
    · simp only [rank, hreading]
      split <;> omega

/-- The reader begins a Read, or takes a step that meets the conditions. -/
theorem reader_cases {l : Label} (hstep : reader.step q l = some q') : q.step l = some q' ∧
    ((∃ size, 0 < size ∧ l = .read size) ∨ l = .advance ∧ q.fits = true ∧ q.single = true) := by
  cases l with
  | push | done | close => cases hstep
  | read size =>
    simp only [reader] at hstep
    split at hstep
    next hsize => exact ⟨hstep, .inl ⟨size, hsize, rfl⟩⟩
    · cases hstep
  | advance =>
    simp only [reader] at hstep
    split at hstep
    next hmeets => exact ⟨hstep, .inr ⟨rfl, Bool.and_eq_true_iff.mp hmeets⟩⟩
    · cases hstep

theorem closed_take (q : UploadQueue) (size : Nat) (p : Packet) (rest : List Packet) :
    (q.take size p rest).closed = q.closed := by
  unfold take
  split
  · split <;> rfl
  · split
    · split <;> rfl
    · rfl

theorem rank_reader {l : Label} (h : q.Holds n data arrived off) (hclosed : q.closed = false)
    (hstep : reader.step q l = some q') : q'.closed = false ∧ q'.rank < q.rank := by
  obtain ⟨hstep, ⟨size, _, rfl⟩ | ⟨rfl, hfits, _⟩⟩ := reader_cases hstep
  · simp only [step] at hstep
    split at hstep
    next hreading =>
      rw [hclosed, if_neg Bool.false_ne_true] at hstep
      cases hstep
      refine ⟨rfl, ?_⟩
      cases hempty : q.heap.isEmpty <;> simp [rank, hreading, hempty]
    · cases hstep
  · rcases advance_cases h.stored.ordered hfits hstep with ⟨size, hreading, hempty, rfl⟩ |
      ⟨size, p, rest, hreading, _, hperm, _, _, hlen, rfl⟩ | ⟨size, p, packets, hreading, hpackets, rfl⟩
    · exact ⟨hclosed, by simp [rank, answer, hreading, hempty]⟩
    · exact ⟨(closed_take q size p rest).trans hclosed,
        rank_take hreading (h.nonempty size (.inl hreading)) hperm hlen⟩
    · have hne := isEmpty_of_perm (push_perm key q.heap p)
      refine ⟨hclosed, ?_⟩
      simp only [rank, hreading, hpackets, hne, weight_perm (push_perm key _ _), weight_cons,
        Bool.false_eq_true, if_false]
      omega

/-- Short of the end, the packet that comes next is in the queue. -/
theorem Holds.next_there (h : q.Holds n data (fun _ => True) off) (hclosed : q.closed = false)
    (hbytes : q.bytes ≠ posted n data) : ∃ p ∈ q.heap ++ q.pushedPackets, p.seq = q.nextSeq := by
  rcases Nat.eq_or_lt_of_le h.stored.next_le with heq | hlt
  · rcases Nat.eq_zero_or_pos off with rfl | hoff
    · rw [h.bytes, heq, take_zero, append_nil] at hbytes
      exact absurd rfl hbytes
    · have := h.stored.next_lt hoff
      omega
  · obtain ⟨p, hp, hseq⟩ := h.kept hclosed _ hlt (Nat.le_refl _) trivial
    exact ⟨p, hp, UInt64.toNat_inj.mp hseq⟩

end UploadQueue

/-- With all packets there, the reader is not stopped before it has read them all. -/
theorem reader_gets_through (hn : n < 2 ^ 64) (h : q.Holds n data (fun _ => True) off) (hclosed : q.closed = false) :
    reader.Inevitable (fun q => q.bytes = posted n data ∨ (q.fits && q.single) = false) q := by
  refine System.inevitable_of_rank (I := fun q => q.closed = false ∧ ∃ off, q.Holds n data (fun _ => True) off)
    Nat.lt_wfRel.wf rank ?_ ?_ ?_ ⟨hclosed, off, h⟩
  · rintro q q' l ⟨hclosed, off, h⟩ hstep
    refine ⟨(rank_reader h hclosed hstep).1, ?_⟩
    obtain ⟨hstep, ⟨size, hsize, rfl⟩ | ⟨rfl, hfits, hsingle⟩⟩ := reader_cases hstep
    · exact ⟨off, h.read hsize hstep⟩
    · exact h.advance hn hfits hsingle hstep
  · rintro q ⟨hclosed, off, h⟩
    by_cases hgoal : q.bytes = posted n data ∨ (q.fits && q.single) = false
    · exact .inl hgoal
    right
    rw [not_or, Bool.not_eq_false] at hgoal
    obtain ⟨hbytes, hmeets⟩ := hgoal
    cases hreading : q.reading with
    | idle =>
      refine ⟨.read 1, ?_⟩
      simp only [reader, Nat.one_pos, if_true, step, hreading, hclosed, Bool.false_eq_true, if_false]
      exact ⟨_, rfl⟩
    | popping size =>
      refine ⟨.advance, ?_⟩
      simp only [reader, hmeets, if_true, step, hreading]
      cases pop key q.heap with
      | none | some => exact ⟨_, rfl⟩
    | receiving size =>
      -- the packet it waits for is in the channel
      obtain ⟨p, hp, hseq⟩ := h.next_there hclosed hbytes
      rcases mem_append.mp hp with hp | hp
      · have hlt := h.waiting size hreading p hp
        rw [hseq] at hlt
        exact absurd hlt (UInt64.lt_irrefl _)
      · obtain ⟨p', packets, hpackets⟩ := exists_cons_of_ne_nil (ne_nil_of_mem hp)
        exact ⟨.advance, _, by simp only [reader, hmeets, if_true, step, hreading, hpackets]; rfl⟩
  · rintro q q' l ⟨hclosed, off, h⟩ hstep
    exact (rank_reader h hclosed hstep).2

end

/-- Where no packet is read in part while another copy of it is in the heap, what was posted comes
out in order and each packet once. -/
theorem uploads_reassembled (n : Nat) (data : Nat → List UInt8) (hn : n < 2 ^ 64) (maxPackets : Nat)
    (past : List (UploadQueue × Label)) (q : UploadQueue) (hrun : (uploads maxPackets).Run past q)
    (hal : System.Along (fun q l => q.posts n data l = true ∧ (l = .advance → q.single = true)) past) :
    (q.closed = false → ∀ r ∈ q.reads, r.2 = none) ∧ q.bytes <+: posted n data ∧
      (q.closed = false → (∀ k < n, Pushed past k) →
        reader.Inevitable (fun q => q.bytes = posted n data ∨ (q.fits && q.single) = false) q) := by
  obtain ⟨off, h⟩ := holds_run hn hrun hal
  refine ⟨h.clean, h.read_prefix, fun hclosed hall => ?_⟩
  have h' : q.Holds n data (fun _ => True) off :=
    { h with kept := fun hclosed k hk hle _ => h.kept hclosed k hk hle (hall k hk) }
  exact reader_gets_through hn h' hclosed

def twoPackets : Nat → List UInt8
  | 0 => [1]
  | 1 => [2, 3]
  | _ => []

def uploadRun (ls : List Label) : Option UploadQueue := (uploads 3).exec ls (.new 3)

theorem uploadRun_run {ls : List Label} {q : UploadQueue} (h : uploadRun ls = some q) :
    (uploads 3).Run ((uploads 3).trace ls (.new 3) []) q := System.run_exec (.start _ rfl) h

/-- The packets come in the wrong order and the second one once; it is read byte by byte. -/
def readInParts : List Label :=
  [.push ⟨[2, 3], 1⟩, .push ⟨[1], 0⟩, .read 1, .advance, .advance, .advance, .advance,
    .read 1, .advance, .read 1, .advance]

theorem uploads_reassembled_inParts :
    ∃ q, uploadRun readInParts = some q ∧ q.bytes = [1, 2, 3] ∧ q.bytes <+: posted 2 twoPackets := by
  let q := (uploadRun readInParts).get (by decide +kernel)
  have hq : uploadRun readInParts = some q := (Option.some_get _).symm
  refine ⟨q, hq, by decide +kernel, ?_⟩
  exact (uploads_reassembled 2 twoPackets (by decide) 3 _ q (uploadRun_run hq)
    (System.along_exec (by decide +kernel))).2.1

/-- The second packet is posted twice and comes in before the first. -/
def retriedPost : List Label :=
  [.push ⟨[2, 3], 1⟩, .push ⟨[2, 3], 1⟩, .push ⟨[1], 0⟩, .read 1, .advance, .advance, .advance, .advance, .advance,
    .advance, .read 1, .advance, .read 1, .advance]

/-- Both copies are in the heap when one is read in part, and the other comes out next: its first
byte is read again. -/
theorem retried_post_is_read_twice :
    ∃ past q, (uploads 3).Run past q ∧ System.Along (fun q l => q.posts 2 twoPackets l = true) past ∧
      q.closed = false ∧ q.bytes = [1, 2, 2] ∧ ¬q.bytes <+: posted 2 twoPackets := by
  let q := (uploadRun retriedPost).get (by decide +kernel)
  have hq : uploadRun retriedPost = some q := (Option.some_get _).symm
  exact ⟨_, q, uploadRun_run hq, System.along_exec (by decide +kernel), by decide +kernel,
    by decide +kernel, by decide +kernel⟩

end SingBox.XHTTP
