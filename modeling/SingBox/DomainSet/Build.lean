import SingBox.Lib.Succinct
import SingBox.Lib.Wire

/-!
# Building a domain set

`build` writes the trie of sorted keys a level at a time. A node is a span of keys that share their
first bytes, kept in 32-bit numbers. `newSuccinctSet` is the walk it replaces, with all nodes in one
queue.
-/
namespace SingBox.DomainSet

open Lib Lib.Succinct

/-- Why a walk gives no trie: an index out of range, or more rounds than it was given. -/
inductive Stop where
  | indexOutOfRange
  | rounds
  deriving DecidableEq

/-- The keys from `start` to `stop`, which share their first `column` bytes. -/
structure Span where
  start : Int
  stop : Int
  column : Int
  deriving DecidableEq

def int32 (x : Int) : Int := Int.bmod x (2 ^ 32)

def index {α : Type} (l : List α) (i : Int) : Except Stop α :=
  match i with
  | .ofNat n =>
    match l[n]? with
    | none => .error .indexOutOfRange
    | some x => .ok x
  | .negSucc _ => .error .indexOutOfRange

/-- `keys[i][column]`. -/
def byteAt (keys : List (List UInt8)) (i column : Int) : Except Stop UInt8 :=
  match index keys i with
  | .error err => .error err
  | .ok key => index key column

/-- The first key from `i` on with another byte than key `first` in the column. -/
def sameByte (keys : List (List UInt8)) (stop column first i : Int) : Except Stop Int :=
  if i < stop then
    match byteAt keys i column with
    | .error err => .error err
    | .ok a =>
      match byteAt keys first column with
      | .error err => .error err
      | .ok b => if a = b then sameByte keys stop column first (i + 1) else .ok i
  else .ok i
termination_by (stop - i).toNat

variable {keys : List (List UInt8)} {stop column first last : Int}

theorem le_of_sameByte {i : Int} (h : sameByte keys stop column first i = .ok last) : i ≤ last := by
  fun_induction sameByte keys stop column first i with
  | case1 => cases h
  | case2 => cases h
  | case3 i _ _ _ _ ih => exact Int.le_trans (Int.le_of_lt (Int.lt_succ i)) (ih h)
  | case4 =>
    cases h
    exact Int.le_refl _
  | case5 =>
    cases h
    exact Int.le_refl _

theorem lt_of_sameByte (hlt : first < stop) (h : sameByte keys stop column first first = .ok last) :
    first < last := by
  rw [sameByte, if_pos hlt] at h
  cases hb : byteAt keys first column with
  | error err =>
    simp only [hb] at h
    cases h
  | ok b =>
    simp only [hb, if_true] at h
    exact Int.lt_of_lt_of_le (Int.lt_succ first) (le_of_sameByte h)

/-- The loop over the children of a node; `body` gets the first key of a child, the key behind it and the label. -/
def eachChild {σ : Type} (keys : List (List UInt8)) (stop column : Int) (body : σ → Int → Int → UInt8 → σ)
    (first : Int) (s : σ) :
    Except Stop σ :=
  if _hlt : first < stop then
    match _hsame : sameByte keys stop column first first with
    | .error err => .error err
    | .ok last =>
      match byteAt keys first column with
      | .error err => .error err
      | .ok label => eachChild keys stop column body last (body s first last label)
  else .ok s
termination_by (stop - first).toNat
decreasing_by
  have := lt_of_sameByte _hlt _hsame
  omega

/-- The arrays as they are written, and the nodes found. -/
structure Walk extends Writer where
  next : List Span

/-- One node: a leaf if its first key ends here, then its children and the one behind them. -/
def visit (child : Int → Walk → Int → Int → UInt8 → Walk) (keys : List (List UInt8)) (item : Span) (w : Walk) :
    Except Stop Walk :=
  match index keys item.start with
  | .error err => .error err
  | .ok key =>
    let (start, w) :=
      if item.column = key.length then (item.start + 1, { w with leaves := setBit w.leaves w.node })
      else (item.start, w)
    match eachChild keys item.stop item.column (child item.column) start w with
    | .error err => .error err
    | .ok w => .ok { w with labelBitmap := setBit w.labelBitmap w.bit, bit := w.bit + 1, node := w.node + 1 }

/-! ## A level at a time -/

def buildChild (column : Int) (w : Walk) (first last : Int) (label : UInt8) : Walk :=
  { w with
    next := w.next ++ [⟨int32 first, int32 last, int32 (column + 1)⟩]
    labels := w.labels ++ [label]
    bit := w.bit + 1 }

def visitLevel (keys : List (List UInt8)) : List Span → Walk → Except Stop Walk
  | [], w => .ok w
  | item :: level, w =>
    match visit buildChild keys item w with
    | .error err => .error err
    | .ok w => visitLevel keys level w

/-- The walk over at most `rounds` levels. -/
def walkLevels (keys : List (List UInt8)) : Nat → List Span → Writer → Except Stop Writer
  | _, [], w => .ok w
  | 0, _ :: _, _ => .error .rounds
  | rounds + 1, level, w =>
    match visitLevel keys level { w with next := [] } with
    | .error err => .error err
    | .ok w => walkLevels keys rounds w.next w.toWriter

def writeWords (words : List (BitVec 64)) : List UInt8 :=
  Wire.appendUvarint 10 words.length ++ words.flatMap fun word => Wire.bigEndian 8 word.toNat

/-- The trie as a binary rule set carries it. -/
def content (t : Trie) : List UInt8 :=
  0 :: writeWords t.leaves ++ writeWords t.labelBitmap ++ Wire.appendUvarint 10 t.labels.length ++ t.labels

def build (rounds : Nat) (keys : List (List UInt8)) : Except Stop (List UInt8) :=
  match walkLevels keys rounds [⟨0, int32 keys.length, 0⟩] .empty with
  | .error err => .error err
  | .ok w => .ok (content w.toTrie)

/-! ## All nodes in a queue -/

/-- A child in the queue; its bit is set to zero. -/
def queueChild (column : Int) (w : Walk) (first last : Int) (label : UInt8) : Walk :=
  { w with
    next := w.next ++ [⟨first, last, column + 1⟩]
    labels := w.labels ++ [label]
    labelBitmap := extend w.labelBitmap w.bit
    bit := w.bit + 1 }

def walkQueue (keys : List (List UInt8)) : Nat → Walk → Except Stop Writer
  | _, ⟨w, []⟩ => .ok w
  | 0, ⟨_, _ :: _⟩ => .error .rounds
  | rounds + 1, ⟨w, item :: queue⟩ =>
    match visit queueChild keys item ⟨w, queue⟩ with
    | .error err => .error err
    | .ok w => walkQueue keys rounds w

/-- The trie of the breadth-first walk that keeps a queue. -/
def newSuccinctSet (rounds : Nat) (keys : List (List UInt8)) : Except Stop Trie :=
  match walkQueue keys rounds ⟨.empty, [⟨0, keys.length, 0⟩]⟩ with
  | .error err => .error err
  | .ok w => .ok w.toTrie

end SingBox.DomainSet
