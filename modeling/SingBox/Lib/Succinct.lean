import Mathlib.Data.List.Sort
import Mathlib.Data.List.Induction

/-!
# Tries written breadth first

A trie is kept as three arrays: which nodes are leaves, a bitmap with a zero for every child of a
node and a one behind them, and the labels. Nodes are numbered breadth first, so that the
`k`-th zero stands for node `k + 1`. A walk that keeps a queue and one that goes a level at
a time give the same order.
-/
namespace SingBox.Lib.Succinct

open List

/-! ## Breadth first -/

section
variable {ν : Type} (children : ν → List ν)

/-- The nodes of `n` levels. -/
def levels : Nat → List ν → List ν
  | 0, _ => []
  | n + 1, level => level ++ levels n (level.flatMap children)

/-- The level `n` steps below. -/
def below : Nat → List ν → List ν
  | 0, level => level
  | n + 1, level => below n (level.flatMap children)

variable {children}

/-- Behind the first level stand the children of all nodes in order. -/
theorem levels_eq {n : Nat} {level : List ν} (h : below children n level = []) :
    levels children n level = level ++ (levels children n level).flatMap children := by
  induction n generalizing level with
  | zero =>
    have hnil : level = [] := h
    rw [hnil]
    rfl
  | succ n ih =>
    have hbelow := ih h
    rw [levels, flatMap_append, ← hbelow]

end

/-! ## Bitmaps -/

/-- The words with room for bit `index`. -/
def extend (words : List (BitVec 64)) (index : Nat) : List (BitVec 64) :=
  words ++ List.replicate (index / 64 + 1 - words.length) 0

def setBit (words : List (BitVec 64)) (index : Nat) : List (BitVec 64) :=
  (extend words index).modify (index / 64) (· ||| 1#64 <<< (index % 64))

def getBit (words : List (BitVec 64)) (index : Nat) : Bool := (words.getD (index / 64) 0).getLsbD (index % 64)

theorem lt_length_extend (words : List (BitVec 64)) (index : Nat) : index / 64 < (extend words index).length := by
  rw [extend, length_append, length_replicate]
  omega

theorem getD_extend (words : List (BitVec 64)) (index i : Nat) : (extend words index).getD i 0 = words.getD i 0 := by
  rw [extend, getD_eq_getElem?_getD, getD_eq_getElem?_getD]
  by_cases hi : i < words.length
  · rw [List.getElem?_append_left hi]
  · rw [List.getElem?_append_right (Nat.le_of_not_lt hi), List.getElem?_replicate,
      List.getElem?_eq_none (Nat.le_of_not_lt hi)]
    split
    · rfl
    · rfl

@[simp] theorem getBit_extend (words : List (BitVec 64)) (index i : Nat) :
    getBit (extend words index) i = getBit words i := by
  rw [getBit, getD_extend, getBit]

theorem getLsbD_mark (w : BitVec 64) {k j : Nat} (hj : j < 64) :
    (w ||| 1#64 <<< k).getLsbD j = (w.getLsbD j || decide (j = k)) := by
  rw [BitVec.getLsbD_or, BitVec.getLsbD_shiftLeft]
  congr 1
  by_cases hjk : j < k
  · simp [hjk, ne_of_lt hjk]
  · have hone : (1#64).getLsbD (j - k) = decide (j - k = 0) := by
      simp [BitVec.getLsbD_one]
    rw [hone]
    simp only [hj, hjk, decide_true, decide_false, Bool.not_false, Bool.true_and]
    exact decide_eq_decide.mpr (by omega)

theorem getBit_setBit (words : List (BitVec 64)) (index i : Nat) :
    getBit (setBit words index) i = (getBit words i || decide (i = index)) := by
  rw [← getBit_extend words index i, setBit, getBit, getBit, getD_eq_getElem?_getD, getD_eq_getElem?_getD,
    List.getElem?_modify, Option.map_eq_map]
  have hlt := lt_length_extend words index
  by_cases hword : index / 64 = i / 64
  · rw [← hword, List.getElem?_eq_getElem hlt]
    simp only [if_true, Option.map_some, Option.getD_some]
    rw [getLsbD_mark _ (Nat.mod_lt _ (by decide))]
    congr 1
    exact decide_eq_decide.mpr (by omega)
  · have hne : i ≠ index := fun h => hword (by rw [h])
    simp [hword, hne]

@[simp] theorem getBit_nil (i : Nat) : getBit [] i = false := by simp [getBit]

theorem lt_of_getBit {words : List (BitVec 64)} {i : Nat} (h : getBit words i = true) : i < 64 * words.length := by
  by_contra hge
  have hnone : words[i / 64]? = none := List.getElem?_eq_none (by omega)
  rw [getBit, getD_eq_getElem?_getD, hnone] at h
  simp at h

/-- Room made for a lower bit makes no difference. -/
theorem setBit_extend (words : List (BitVec 64)) {i index : Nat} (h : i ≤ index) :
    setBit (extend words i) index = setBit words index := by
  have hdiv : i / 64 ≤ index / 64 := Nat.div_le_div_right h
  have hextend : extend (extend words i) index = extend words index := by
    simp only [extend, append_assoc, length_append, length_replicate, replicate_append_replicate]
    congr 2
    omega
  rw [setBit, hextend, setBit]

/-! ## The trie in three arrays -/

structure Trie where
  leaves : List (BitVec 64)
  labelBitmap : List (BitVec 64)
  labels : List UInt8

namespace Trie

/-- The places of the ones. -/
def ones (t : Trie) : List Nat := (List.range (64 * t.labelBitmap.length)).filter (getBit t.labelBitmap)

/-- The labels between the ones of the node before and of the node itself, with the nodes they lead to. -/
def children (t : Trie) (i : Nat) : List (UInt8 × Nat) :=
  let first := if i = 0 then 0 else t.ones.getD (i - 1) 0 + 1
  let last := t.ones.getD i 0
  (List.range' first (last - first)).filterMap fun p => t.labels[p - i]?.map fun label => (label, p - i + 1)

/-- The walk down from node `i`. -/
def accepts (t : Trie) : Nat → List UInt8 → Bool
  | i, [] => getBit t.leaves i
  | i, c :: key =>
    match (t.children i).find? (·.1 == c) with
    | none => false
    | some (_, j) => t.accepts j key

end Trie

/-- A trie while it is written, with the number of the next node and of the next bit. -/
structure Writer extends Trie where
  bit : Nat
  node : Nat

namespace Writer

def empty : Writer := ⟨⟨[], [], []⟩, 0, 0⟩

/-- A node with the labels of its children. -/
def emit (w : Writer) (entry : Bool × List UInt8) : Writer where
  leaves := if entry.1 then setBit w.leaves w.node else w.leaves
  labelBitmap := setBit w.labelBitmap (w.bit + entry.2.length)
  labels := w.labels ++ entry.2
  bit := w.bit + entry.2.length + 1
  node := w.node + 1

end Writer

/-- How many labels stand before those of node `i`. -/
def offset (entries : List (Bool × List UInt8)) (i : Nat) : Nat := ((entries.take i).flatMap (·.2)).length

section
variable (entries : List (Bool × List UInt8))

variable {i j : Nat} {entry : Bool × List UInt8} {w : Writer}

variable {entries} in
theorem offset_succ (h : entries[i]? = some entry) :
    offset entries (i + 1) = offset entries i + entry.2.length := by
  rw [offset, offset, take_add_one, h]
  simp

theorem offset_le (i : Nat) : offset entries i ≤ offset entries (i + 1) := by
  cases h : entries[i]? with
  | none =>
    rw [offset, offset, take_add_one, h]
    simp
  | some entry =>
    rw [offset_succ h]
    omega

theorem offset_mono (h : i ≤ j) : offset entries i ≤ offset entries j := by
  induction j with
  | zero =>
    rw [Nat.le_zero.mp h]
  | succ j ih =>
    rcases Nat.le_succ_iff.mp h with h | h
    · exact le_trans (ih h) (offset_le entries j)
    · rw [h]

/-- The one behind the labels of node `i`. -/
def oneAt (i : Nat) : Nat := offset entries (i + 1) + i

theorem oneAt_lt (h : i < j) : oneAt entries i < oneAt entries j := by
  have hle : offset entries (i + 1) ≤ offset entries (j + 1) := offset_mono entries (Nat.succ_le_succ (le_of_lt h))
  exact Nat.add_lt_add_of_le_of_lt hle h

/-- What the arrays hold once the nodes are written. -/
structure Wrote (w : Writer) : Prop where
  labels : w.labels = entries.flatMap (·.2)
  node : w.node = entries.length
  bit : w.bit = (entries.flatMap (·.2)).length + entries.length
  leaves : ∀ i, getBit w.leaves i = ((entries[i]?.map (·.1)).getD false)
  ones : ∀ p, getBit w.labelBitmap p = true ↔ ∃ i < entries.length, p = oneAt entries i

theorem wrote_empty : Wrote [] Writer.empty :=
  ⟨rfl, rfl, rfl, fun i => by simp [Writer.empty], fun p => by simp [Writer.empty]⟩

theorem offset_length : offset entries entries.length = (entries.flatMap (·.2)).length := by
  rw [offset, take_length]

variable {entries}

theorem offset_append (entry : Bool × List UInt8) (h : i ≤ entries.length) :
    offset (entries ++ [entry]) i = offset entries i := by
  rw [offset, offset, take_append_of_le_length h]

theorem Wrote.emit (h : Wrote entries w) (entry : Bool × List UInt8) : Wrote (entries ++ [entry]) (w.emit entry) := by
  have hlast : oneAt (entries ++ [entry]) entries.length = w.bit + entry.2.length := by
    rw [oneAt, offset_succ (by simp : (entries ++ [entry])[entries.length]? = some entry),
      offset_append entry (le_refl _), offset_length, h.bit]
    omega
  constructor
  · simp [Writer.emit, h.labels]
  · simp [Writer.emit, h.node]
  · simp only [Writer.emit, h.bit, flatMap_append, flatMap_singleton, length_append, length_singleton]
    omega
  · intro i
    have hset : getBit (w.emit entry).leaves i = (getBit w.leaves i || (entry.1 && decide (i = entries.length))) := by
      rw [Writer.emit, h.node]
      cases entry.1 with
      | false => simp
      | true => simp [getBit_setBit]
    rw [hset, h.leaves]
    rcases Nat.lt_trichotomy i entries.length with hi | rfl | hi
    · simp [List.getElem?_append_left hi, ne_of_lt hi]
    · simp
    · simp [List.getElem?_eq_none (le_of_lt hi), ne_of_gt hi, List.getElem?_append_right (le_of_lt hi),
        Nat.sub_ne_zero_of_lt hi]
  · intro p
    have hold : ∀ i < entries.length, oneAt (entries ++ [entry]) i = oneAt entries i := fun i hi => by
      rw [oneAt, oneAt, offset_append entry hi]
    rw [Writer.emit, getBit_setBit, Bool.or_eq_true, h.ones, decide_eq_true_eq, ← hlast, length_append,
      length_singleton]
    constructor
    · rintro (⟨i, hi, rfl⟩ | rfl)
      · exact ⟨i, by omega, (hold i hi).symm⟩
      · exact ⟨entries.length, by omega, rfl⟩
    · rintro ⟨i, hi, rfl⟩
      rcases Nat.lt_succ_iff_lt_or_eq.mp hi with hi | rfl
      · exact .inl ⟨i, hi, hold i hi⟩
      · exact .inr rfl

theorem wrote_foldl (entries : List (Bool × List UInt8)) : Wrote entries (entries.foldl Writer.emit .empty) := by
  induction entries using List.reverseRecOn with
  | nil => exact wrote_empty
  | append_singleton entries entry ih =>
    rw [foldl_append]
    exact ih.emit entry

/-! ## Reading back -/

theorem Wrote.ones_eq (h : Wrote entries w) : w.toTrie.ones = (List.range entries.length).map (oneAt entries) := by
  have hsorted : (w.toTrie.ones).Pairwise (· < ·) := pairwise_lt_range.filter _
  have hsorted' : ((List.range entries.length).map (oneAt entries)).Pairwise (· < ·) := by
    rw [pairwise_map]
    exact pairwise_lt_range.imp fun hij => oneAt_lt entries hij
  refine List.Perm.eq_of_pairwise (fun a b _ _ hab hba => absurd (lt_trans hab hba) (lt_irrefl a)) hsorted hsorted' ?_
  refine (perm_ext_iff_of_nodup (hsorted.imp ne_of_lt) (hsorted'.imp ne_of_lt)).mpr fun p => ?_
  rw [Trie.ones, mem_filter, mem_range, mem_map]
  constructor
  · rintro ⟨_, hp⟩
    obtain ⟨i, hi, rfl⟩ := (h.ones p).mp hp
    exact ⟨i, mem_range.mpr hi, rfl⟩
  · rintro ⟨i, hi, rfl⟩
    have hp := (h.ones _).mpr ⟨i, mem_range.mp hi, rfl⟩
    exact ⟨lt_of_getBit hp, hp⟩

theorem getElem?_labels (h : entries[i]? = some entry) (hj : j < entry.2.length) :
    (entries.flatMap (·.2))[offset entries i + j]? = entry.2[j]? := by
  obtain ⟨hi, hentry⟩ := List.getElem?_eq_some_iff.mp h
  have hsplit : entries.flatMap (·.2) = (entries.take i).flatMap (·.2) ++
      (entry.2 ++ (entries.drop (i + 1)).flatMap (·.2)) := by
    conv_lhs => rw [← take_append_drop i entries, drop_eq_getElem_cons hi, hentry]
    rw [flatMap_append, flatMap_cons]
  rw [hsplit, offset, List.getElem?_append_right (Nat.le_add_right _ _), Nat.add_sub_cancel_left,
    List.getElem?_append_left hj]

/-- The children of node `i`: its labels, with the numbers of the nodes behind those before it. -/
theorem Wrote.children_eq (h : Wrote entries w) (hi : entries[i]? = some entry) :
    w.toTrie.children i = entry.2.zipIdx (offset entries i + 1) := by
  have hlt : i < entries.length := (List.getElem?_eq_some_iff.mp hi).1
  have hfirst : (if i = 0 then 0 else w.toTrie.ones.getD (i - 1) 0 + 1) = offset entries i + i := by
    rw [h.ones_eq]
    by_cases hzero : i = 0
    · simp [hzero, offset]
    · have hprev : i - 1 < entries.length := by omega
      have hsucc : i - 1 + 1 = i := by omega
      rw [if_neg hzero, getD_eq_getElem?_getD, List.getElem?_map, List.getElem?_range hprev]
      simp only [Option.map_some, Option.getD_some, oneAt, hsucc]
      omega
  have hlast : w.toTrie.ones.getD i 0 = offset entries i + i + entry.2.length := by
    rw [h.ones_eq, getD_eq_getElem?_getD, List.getElem?_map, List.getElem?_range hlt]
    simp only [Option.map_some, Option.getD_some, oneAt, offset_succ hi]
    omega
  rw [Trie.children]
  simp only [hfirst, hlast, Nat.add_sub_cancel_left]
  have hlabel : ∀ j < entry.2.length, w.labels[offset entries i + i + j - i]? = entry.2[j]? := fun j hj => by
    rw [h.labels, show offset entries i + i + j - i = offset entries i + j by omega, getElem?_labels hi hj]
  apply ext_getElem?
  intro j
  rw [List.range'_eq_map_range, filterMap_map]
  have hall : ((List.range entry.2.length).filterMap ((fun p => w.labels[p - i]?.map fun label => (label, p - i + 1)) ∘
      fun x => offset entries i + i + x)) =
        (List.range entry.2.length).map fun j => (entry.2.getD j 0, offset entries i + 1 + j) := by
    rw [← filterMap_eq_map]
    refine filterMap_congr fun j hj => ?_
    have hj := mem_range.mp hj
    simp only [Function.comp_apply, hlabel j hj, List.getElem?_eq_getElem hj, Option.map_some, getD_eq_getElem?_getD,
      Option.getD_some, Option.some.injEq, Prod.mk.injEq, true_and]
    omega
  rw [hall]
  by_cases hj : j < entry.2.length
  · simp [hj]
  · simp [hj]

end

section
variable {ν : Type} (leaf : ν → Bool) (kids : ν → List (UInt8 × ν))

/-- What a node writes. -/
def entryOf (n : ν) : Bool × List UInt8 := (leaf n, (kids n).map (·.1))

/-- The walk down from a node itself. -/
def follow (n : ν) : List UInt8 → Bool
  | [] => leaf n
  | c :: key =>
    match (kids n).find? (·.1 == c) with
    | none => false
    | some (_, m) => follow m key

variable {leaf kids}

theorem find?_zipIdx {order : List ν} (l : List (UInt8 × ν)) (start : Nat) (c : UInt8)
    (h : ∀ (j : Nat) (x : UInt8 × ν), l[j]? = some x → order[start + j]? = some x.2) :
    (l.find? (·.1 == c) = none ∧ (((l.map (·.1)).zipIdx start).find? (·.1 == c)) = none) ∨
    ∃ x i, l.find? (·.1 == c) = some x ∧ ((l.map (·.1)).zipIdx start).find? (·.1 == c) = some (x.1, i) ∧
      order[i]? = some x.2 := by
  induction l generalizing start with
  | nil => exact .inl ⟨rfl, rfl⟩
  | cons x l ih =>
    simp only [map_cons, zipIdx_cons]
    by_cases hx : (x.1 == c) = true
    · exact .inr ⟨x, start, List.find?_cons_of_pos hx, List.find?_cons_of_pos hx, h 0 x rfl⟩
    have hx' : ¬((x.1, start).1 == c) = true := hx
    rw [List.find?_cons_of_neg (p := fun y : UInt8 × ν => y.1 == c) hx,
      List.find?_cons_of_neg (p := fun y : UInt8 × Nat => y.1 == c) hx']
    refine ih (start + 1) fun j y hy => ?_
    rw [Nat.add_assoc, Nat.add_comm 1 j]
    exact h (j + 1) y hy

/-- The trie written from nodes that stand breadth first accepts what the walk over the nodes accepts. -/
theorem accepts_written {order : List ν} {root : ν} (h : order = root :: order.flatMap fun n => (kids n).map (·.2))
    (key : List UInt8) :
    ((order.map (entryOf leaf kids)).foldl Writer.emit .empty).accepts 0 key = follow leaf kids root key := by
  set entries := order.map (entryOf leaf kids) with hentries
  have hwrote := wrote_foldl entries
  generalize entries.foldl Writer.emit .empty = w at hwrote ⊢
  have hnodes : ∀ (i : Nat) (n : ν), order[i]? = some n → w.accepts i key = follow leaf kids n key := by
    induction key with
    | nil =>
      intro i n hn
      rw [Trie.accepts, follow, hwrote.leaves, hentries, List.getElem?_map, hn]
      rfl
    | cons c key ih =>
      intro i n hn
      have hentry : entries[i]? = some (entryOf leaf kids n) := by rw [hentries, List.getElem?_map, hn]; rfl
      -- Child `j` of node `i` stands behind the children of the nodes before it.
      have hchild : ∀ (j : Nat) (x : UInt8 × ν), (kids n)[j]? = some x →
          order[offset entries i + 1 + j]? = some x.2 := by
        intro j x hx
        obtain ⟨hi, hget⟩ := List.getElem?_eq_some_iff.mp hn
        have hoffset : offset entries i = ((order.take i).flatMap fun n => (kids n).map (·.2)).length := by
          rw [hentries, offset, ← map_take, flatMap_map, length_flatMap, length_flatMap]
          simp [entryOf]
        have hsplit : order.flatMap (fun n => (kids n).map (·.2)) =
            (order.take i).flatMap (fun n => (kids n).map (·.2)) ++
            ((kids n).map (·.2) ++ (order.drop (i + 1)).flatMap fun n => (kids n).map (·.2)) := by
          conv_lhs => rw [← take_append_drop i order, drop_eq_getElem_cons hi, hget]
          rw [flatMap_append, flatMap_cons]
        have hj : j < ((kids n).map (·.2)).length := by
          rw [length_map]
          exact (List.getElem?_eq_some_iff.mp hx).1
        have hnext : ∀ k, order[k + 1]? = (order.flatMap fun n => (kids n).map (·.2))[k]? := by
          intro k
          conv_lhs => rw [h]
          exact List.getElem?_cons_succ
        rw [hoffset, Nat.add_right_comm, hnext, hsplit, List.getElem?_append_right (Nat.le_add_right _ _),
          Nat.add_sub_cancel_left, List.getElem?_append_left hj, List.getElem?_map, hx]
        rfl
      rw [Trie.accepts, follow, hwrote.children_eq hentry]
      rcases find?_zipIdx (kids n) (offset entries i + 1) c hchild with ⟨hnone, hnone'⟩ | ⟨x, i', hx, hx', hi'⟩
      · have hnone'' : ((entryOf leaf kids n).2.zipIdx (offset entries i + 1)).find? (·.1 == c) = none := hnone'
        rw [hnone, hnone'']
      · have hx'' : ((entryOf leaf kids n).2.zipIdx (offset entries i + 1)).find? (·.1 == c) =
            some (x.1, i') := hx'
        rw [hx, hx'']
        exact ih i' x.2 hi'
  exact hnodes 0 root (by rw [h]; rfl)

end

end SingBox.Lib.Succinct
