import Z4.Foundations.BigEndian

/-!
# Length-prefixed records

A record is written as its length, in `w` big-endian bytes, followed by its bytes. Reading one takes
the two parts off the front of the input. Each part is read in full or not at all: an input that is
empty where a part should start is at its end, one that stops inside a part ends unexpectedly.

`readFrame_frame` undoes one record and leaves the rest of the input as it is, so a whole stream is
undone by induction over what was written. `length_of_readFrame` says that reading a record consumes
input, which is what makes a loop over records terminate.

An input that stops right after the length of a record that is not empty is at its end where the
bytes of the record should start. `readFrame` does not tell this end from the end of the last
record; `readFrame_eq_eof_iff` has both.
-/

namespace Framing

/-- How reading can fail: at the very end of the input, or inside a part. -/
inductive ReadError where
  | eof
  | unexpectedEOF
deriving DecidableEq

/-- Take `n` bytes off the input. Taking none always succeeds. -/
def readFull (n : ℕ) (src : List UInt8) : Except ReadError (List UInt8 × List UInt8) :=
  if n ≤ src.length then .ok (src.take n, src.drop n)
  else if src = [] then .error .eof
  else .error .unexpectedEOF

/-- A record with its length in front. Of a length that does not fit, the low bytes are written. -/
def frame (w : ℕ) (bs : List UInt8) : List UInt8 := BigEndian.bytes w bs.length ++ bs

/-- Take a record off the input. -/
def readFrame (w : ℕ) (src : List UInt8) : Except ReadError (List UInt8 × List UInt8) :=
  match readFull w src with
  | .ok (lb, src) => readFull (BigEndian.value lb) src
  | .error e => .error e

variable {w n : ℕ} {bs src rest : List UInt8}

theorem readFull_append (h : bs.length = n) : readFull n (bs ++ rest) = .ok (bs, rest) := by
  subst h
  rw [readFull, if_pos (by simp), List.take_left, List.drop_left]

theorem append_of_readFull (h : readFull n src = .ok (bs, rest)) :
    src = bs ++ rest ∧ bs.length = n := by
  rw [readFull] at h
  split at h
  · rename_i hn
    obtain ⟨rfl, rfl⟩ := Prod.mk.inj (Except.ok.inj h)
    exact ⟨(List.take_append_drop n src).symm, List.length_take_of_le hn⟩
  · split at h <;> simp at h

/-- Reading is at the end of the input exactly when there is none left and some is wanted. -/
theorem readFull_eq_eof_iff : readFull n src = .error .eof ↔ src = [] ∧ n ≠ 0 := by
  rw [readFull]
  split
  · rename_i hn
    refine iff_of_false (by simp) ?_
    rintro ⟨rfl, hn0⟩
    exact hn0 (Nat.le_zero.mp hn)
  · rename_i hn
    split
    · rename_i hsrc
      refine iff_of_true rfl ⟨hsrc, ?_⟩
      rintro rfl
      exact hn (Nat.zero_le _)
    · rename_i hsrc
      exact iff_of_false (by simp) fun h ↦ hsrc h.1

/-- A record is read back with the rest of the input untouched. -/
theorem readFrame_frame (h : bs.length < 256 ^ w) (rest : List UInt8) :
    readFrame w (frame w bs ++ rest) = .ok (bs, rest) := by
  rw [readFrame, frame, List.append_assoc, readFull_append (BigEndian.length_bytes w _)]
  simp only [BigEndian.value_bytes_of_lt h]
  exact readFull_append rfl

theorem append_of_readFrame (h : readFrame w src = .ok (bs, rest)) :
    src = frame w bs ++ rest ∧ bs.length < 256 ^ w := by
  rw [readFrame] at h
  split at h
  · rename_i lb src' hlb
    obtain ⟨rfl, hw⟩ := append_of_readFull hlb
    obtain ⟨rfl, hlen⟩ := append_of_readFull h
    have hlt := BigEndian.value_lt lb
    rw [hw, ← hlen] at hlt
    have hbytes : BigEndian.bytes w bs.length = lb := by
      refine BigEndian.value_injective (by simp [hw]) ?_
      rw [BigEndian.value_bytes_of_lt hlt, hlen]
    rw [frame, hbytes, List.append_assoc]
    exact ⟨rfl, hlt⟩
  · simp at h

theorem length_of_readFrame (h : readFrame w src = .ok (bs, rest)) :
    rest.length + w ≤ src.length := by
  obtain ⟨rfl, -⟩ := append_of_readFrame h
  simp only [frame, List.length_append, BigEndian.length_bytes]
  omega

/-- Reading a record is at the end of the input when there is none, and also when the input stops
right after the length field of a record that is not empty. -/
theorem readFrame_eq_eof_iff (hw : w ≠ 0) :
    readFrame w src = .error .eof ↔ src = [] ∨ src.length = w ∧ BigEndian.value src ≠ 0 := by
  rw [readFrame]
  cases hlb : readFull w src with
  | error e =>
    constructor
    · intro h
      obtain rfl : e = .eof := by simpa using h
      exact .inl (readFull_eq_eof_iff.mp hlb).1
    · rintro (hsrc | ⟨hlen, -⟩)
      · have heof := readFull_eq_eof_iff.mpr ⟨hsrc, hw⟩
        rw [hlb] at heof
        exact heof
      · have hok : readFull w (src ++ []) = .ok (src, []) := readFull_append hlen
        rw [List.append_nil, hlb] at hok
        simp at hok
  | ok r =>
    obtain ⟨lb, src'⟩ := r
    obtain ⟨rfl, hlen⟩ := append_of_readFull hlb
    simp only [readFull_eq_eof_iff, List.append_eq_nil_iff, List.length_append]
    constructor
    · rintro ⟨rfl, hvalue⟩
      rw [List.append_nil]
      exact .inr ⟨by simpa using hlen, hvalue⟩
    · rintro (⟨rfl, -⟩ | ⟨hsrc, hvalue⟩)
      · exact absurd hlen.symm hw
      · obtain rfl : src' = [] := List.length_eq_zero_iff.mp (by omega)
        rw [List.append_nil] at hvalue
        exact ⟨rfl, hvalue⟩

end Framing
