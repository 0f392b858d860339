import Mathlib.Data.List.Basic

/-!
# Streams read in pieces

A reader gives its bytes piece by piece and ends with an error, as an `io.Reader` does.
`io.ReadFull` gets the same bytes however they are cut.
-/
namespace SingBox.Lib.Stream

open List

inductive ReadError where
  | eof
  | unexpectedEOF
  | new (text : String)
  deriving DecidableEq

/-- What a reader still gives. The error comes with the last piece if the reader is eager. -/
structure Reader where
  pieces : List (List UInt8)
  last : ReadError
  eager : Bool

namespace Reader

def bytes (r : Reader) : List UInt8 := r.pieces.flatten

/-- One `Read` into a buffer of `n` bytes. -/
def read (r : Reader) (n : Nat) : List UInt8 × Option ReadError × Reader :=
  match r.pieces with
  | [] => ([], some r.last, r)
  | piece :: rest =>
    if n < piece.length then (piece.take n, none, { r with pieces := piece.drop n :: rest })
    else (piece, if r.eager && rest.isEmpty then some r.last else none, { r with pieces := rest })

variable {r : Reader} {n : Nat}

theorem read_decreases {next : Reader} {got : List UInt8} (hn : n ≠ 0) (h : r.read n = (got, none, next)) :
    next.pieces.length + (n - got.length) < r.pieces.length + n := by
  unfold read at h
  cases hp : r.pieces with
  | nil =>
    rw [hp] at h
    cases h
  | cons piece rest =>
    rw [hp] at h
    by_cases hlt : n < piece.length
    · simp only [hlt, if_true, Prod.mk.injEq, true_and] at h
      obtain ⟨rfl, rfl⟩ := h
      simp only [length_take, length_cons]
      omega
    · simp only [hlt, if_false, Prod.mk.injEq] at h
      obtain ⟨rfl, _, rfl⟩ := h
      simp only [length_cons]
      omega

/-- Reads until there are `n` bytes or an error. -/
def readLoop (r : Reader) (n : Nat) : List UInt8 × Option ReadError × Reader :=
  if _hn : n = 0 then ([], none, r)
  else
    match _h : r.read n with
    | (got, some err, next) => (got, some err, next)
    | (got, none, next) =>
      let (more, err, final) := readLoop next (n - got.length)
      (got ++ more, err, final)
termination_by r.pieces.length + n
decreasing_by exact read_decreases _hn _h

def readFull (r : Reader) (n : Nat) : List UInt8 × Option ReadError × Reader :=
  let (got, err, next) := r.readLoop n
  if n ≤ got.length then (got, none, next)
  else (got, if got ≠ [] ∧ err = some .eof then some .unexpectedEOF else err, next)

/-- What a read of `n` bytes does to a stream, however it is cut. -/
structure Reads (r : Reader) (n : Nat) (result : List UInt8 × Option ReadError × Reader) : Prop where
  got : result.1 = r.bytes.take n
  rest : result.2.2.bytes = r.bytes.drop n
  last : result.2.2.last = r.last
  short : r.bytes.length < n → result.2.1 = some r.last

theorem read_spec (r : Reader) (n : Nat) : ∃ got err next, r.read n = (got, err, next) ∧
    r.bytes = got ++ next.bytes ∧ got.length ≤ n ∧ next.last = r.last ∧
    (err = none ∨ (err = some r.last ∧ next.bytes = [])) := by
  unfold read
  cases hp : r.pieces with
  | nil => exact ⟨_, _, _, rfl, by simp, by simp, rfl, .inr ⟨rfl, by simp [bytes, hp]⟩⟩
  | cons piece rest =>
    by_cases hlt : n < piece.length
    · refine ⟨_, _, _, if_pos hlt, ?_, length_take_le _ _, rfl, .inl rfl⟩
      simp [bytes, hp, ← append_assoc]
    refine ⟨_, _, _, if_neg hlt, by simp [bytes, hp], by omega, rfl, ?_⟩
    by_cases he : (r.eager && rest.isEmpty) = true
    · rw [if_pos he]
      rw [Bool.and_eq_true, List.isEmpty_iff] at he
      exact .inr ⟨rfl, by simp [bytes, he.2]⟩
    · rw [if_neg he]
      exact .inl rfl

theorem readLoop_reads (r : Reader) (n : Nat) : Reads r n (r.readLoop n) := by
  -- The recursion of the loop: each round without an error uses up a piece or fills the buffer.
  induction hm : r.pieces.length + n using Nat.strongRecOn generalizing r n with
  | ind m ih =>
    rw [readLoop]
    by_cases hn : n = 0
    · rw [dif_pos hn, hn]
      exact ⟨by simp, by simp, rfl, by omega⟩
    rw [dif_neg hn]
    obtain ⟨got, err, next, hread, hbytes, hlen, hlast, herr⟩ := r.read_spec n
    have htake : r.bytes.take n = got ++ next.bytes.take (n - got.length) := by
      rw [hbytes, take_append, take_of_length_le hlen]
    have hdrop : r.bytes.drop n = next.bytes.drop (n - got.length) := by
      rw [hbytes, drop_append, drop_of_length_le hlen, nil_append]
    have hlength : r.bytes.length = got.length + next.bytes.length := by rw [hbytes, length_append]
    split
    next hread' =>
      rw [hread] at hread'
      cases hread'
      rcases herr with herr | ⟨herr, hnil⟩
      · cases herr
      · rw [hnil, take_nil, append_nil] at htake
        rw [hnil, drop_nil] at hdrop
        exact ⟨htake.symm, hnil.trans hdrop.symm, hlast, fun _ => herr⟩
    next hread' =>
      rw [hread] at hread'
      cases hread'
      obtain ⟨hgot, hrest, hlast', hshort⟩ := ih _ (hm ▸ read_decreases hn hread) next (n - got.length) rfl
      exact ⟨by rw [htake, ← hgot], hrest.trans hdrop.symm, hlast'.trans hlast,
        fun hlt => (hshort (by omega)).trans (by rw [hlast])⟩

/-- The error of `io.ReadFull` at the end of the stream. -/
def truncated (got : List UInt8) (last : ReadError) : ReadError :=
  if got ≠ [] ∧ last = .eof then .unexpectedEOF else last

theorem readFull_of_le (h : n ≤ r.bytes.length) :
    ∃ next, r.readFull n = (r.bytes.take n, none, next) ∧ next.bytes = r.bytes.drop n ∧ next.last = r.last := by
  have hreads := r.readLoop_reads n
  unfold readFull
  generalize r.readLoop n = result at hreads ⊢
  obtain ⟨got, err, next⟩ := result
  obtain ⟨rfl, hrest, hlast, -⟩ := hreads
  exact ⟨next, if_pos (by simp [h]), hrest, hlast⟩

theorem readFull_of_lt (h : r.bytes.length < n) :
    ∃ next, r.readFull n = (r.bytes, some (truncated r.bytes r.last), next) ∧ next.bytes = [] ∧ next.last = r.last := by
  have hreads := r.readLoop_reads n
  unfold readFull
  generalize r.readLoop n = result at hreads ⊢
  obtain ⟨got, err, next⟩ := result
  obtain ⟨rfl, hrest, hlast, hshort⟩ := hreads
  obtain rfl := hshort h
  rw [drop_of_length_le (Nat.le_of_lt h)] at hrest
  refine ⟨next, ?_, hrest, hlast⟩
  simp only [take_of_length_le (Nat.le_of_lt h), Nat.not_le.mpr h, if_false, truncated, Option.some.injEq,
    apply_ite some]

theorem readFull_rest (r : Reader) (n : Nat) : (r.readFull n).2.2.bytes = r.bytes.drop n := by
  by_cases h : n ≤ r.bytes.length
  · obtain ⟨next, hread, hrest, -⟩ := readFull_of_le h
    rw [hread, hrest]
  · have hlt := Nat.lt_of_not_le h
    obtain ⟨next, hread, hrest, -⟩ := readFull_of_lt hlt
    rw [hread, hrest, drop_of_length_le (Nat.le_of_lt hlt)]

/-- What stands in front is read whole. -/
theorem readFull_append {front rest : List UInt8} (h : r.bytes = front ++ rest) :
    ∃ next, r.readFull front.length = (front, none, next) ∧ next.bytes = rest ∧ next.last = r.last := by
  obtain ⟨next, hread, hrest, hlast⟩ := readFull_of_le (r := r) (n := front.length) (by simp [h])
  refine ⟨next, ?_, ?_, hlast⟩
  · rw [hread, h, take_left]
  · rw [hrest, h, drop_left]

end Reader
end SingBox.Lib.Stream
