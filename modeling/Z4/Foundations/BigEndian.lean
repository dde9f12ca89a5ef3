import Mathlib

/-!
# Big-endian byte strings

Byte strings are `List UInt8`, compared by the lexicographic `compare`, which is the order a
byte-ordered store keeps its keys in. `value` reads a byte string as a number, most significant byte
first, and `bytes w n` is the fixed-width encoding of `n`.

The bridge between the two orders is `compare_eq_compare_value`: byte strings of one length compare
as the numbers they encode. Together with `compare_append_left`, which cancels a common prefix, it
turns every comparison of keys that share a prefix into a comparison of numbers.

The last section is about the *minimal* encoding, which has no leading zero byte, and about what is
lost when it is copied to the front of a zeroed buffer: `leftAlign_eq_iff` says exactly which
numbers can then no longer be told apart.
-/

namespace BigEndian

/-! ## Values -/

/-- The number a byte string denotes, most significant byte first. -/
def value (bs : List UInt8) : ℕ := bs.foldl (fun n b ↦ 256 * n + b.toNat) 0

/-- The `w` big-endian bytes of `n`; higher bits are dropped. -/
def bytes : ℕ → ℕ → List UInt8
  | 0, _ => []
  | w + 1, n => bytes w (n / 256) ++ [UInt8.ofNat n]

@[simp] theorem value_nil : value [] = 0 := rfl

theorem value_concat (bs : List UInt8) (b : UInt8) :
    value (bs ++ [b]) = 256 * value bs + b.toNat := by
  rw [value, List.foldl_append, ← value]
  rfl

theorem value_append (as bs : List UInt8) :
    value (as ++ bs) = value as * 256 ^ bs.length + value bs := by
  induction bs using List.reverseRecOn with
  | nil => simp
  | append_singleton bs b ih =>
    rw [← List.append_assoc, value_concat, ih, value_concat, List.length_append,
      List.length_singleton, pow_succ]
    ring

theorem value_singleton (b : UInt8) : value [b] = b.toNat := by
  simpa using value_concat [] b

theorem value_cons (b : UInt8) (bs : List UInt8) :
    value (b :: bs) = b.toNat * 256 ^ bs.length + value bs := by
  rw [← List.singleton_append, value_append, value_singleton]

theorem value_lt (bs : List UInt8) : value bs < 256 ^ bs.length := by
  induction bs using List.reverseRecOn with
  | nil => simp
  | append_singleton bs b ih =>
    have hb : b.toNat < 256 := b.toNat_lt
    rw [value_concat, List.length_append, List.length_singleton, pow_succ]
    omega

@[simp] theorem value_replicate_zero (k : ℕ) : value (List.replicate k 0) = 0 := by
  induction k with
  | zero => rfl
  | succ k ih => rw [List.replicate_succ', value_concat, ih]; rfl

@[simp] theorem length_bytes (w n : ℕ) : (bytes w n).length = w := by
  induction w generalizing n with
  | zero => rfl
  | succ w ih => simp [bytes, ih]

theorem value_bytes (w n : ℕ) : value (bytes w n) = n % 256 ^ w := by
  induction w generalizing n with
  | zero => simp [bytes, Nat.mod_one]
  | succ w ih =>
    rw [bytes, value_concat, ih, pow_succ', Nat.mod_mul, UInt8.toNat_ofNat']
    omega

theorem value_bytes_of_lt {w n : ℕ} (h : n < 256 ^ w) : value (bytes w n) = n := by
  rw [value_bytes, Nat.mod_eq_of_lt h]

/-! ## The order -/

theorem compare_append_left (p as bs : List UInt8) :
    compare (p ++ as) (p ++ bs) = compare as bs := by
  induction p with
  | nil => rfl
  | cons b p ih =>
    have hb : compare b b = .eq := Std.ReflCmp.compare_self
    rw [List.cons_append, List.cons_append, List.compare_cons_cons, ih, hb]
    rfl

private theorem compare_uint8 (a b : UInt8) : compare a b = compare a.toNat b.toNat := by
  simp only [compare, compareOfLessAndEq, UInt8.lt_iff_toNat_lt, ← UInt8.toNat_inj]

/-- Byte strings of one length compare as the numbers they denote. -/
theorem compare_eq_compare_value {as bs : List UInt8} (h : as.length = bs.length) :
    compare as bs = compare (value as) (value bs) := by
  induction as generalizing bs with
  | nil =>
    obtain rfl : bs = [] := List.length_eq_zero_iff.mp h.symm
    rfl
  | cons a as ih =>
    obtain ⟨b, bs, rfl⟩ := List.exists_cons_of_length_eq_add_one h.symm
    have hlen : as.length = bs.length := by simpa using h
    have hva := value_lt as
    have hvb := value_lt bs
    rw [List.compare_cons_cons, ih hlen, compare_uint8, value_cons, value_cons, hlen]
    rw [hlen] at hva
    rcases Nat.lt_trichotomy a.toNat b.toNat with hab | hab | hab
    · -- a smaller leading byte outweighs everything behind it
      have hlt : a.toNat * 256 ^ bs.length + value as < b.toNat * 256 ^ bs.length + value bs := by
        have := Nat.mul_le_mul_right (256 ^ bs.length) hab
        rw [Nat.succ_mul] at this
        omega
      rw [Nat.compare_eq_lt.mpr hab, Nat.compare_eq_lt.mpr hlt]
      rfl
    · rw [hab, Nat.compare_eq_eq.mpr rfl]
      simp only [Ordering.then, compare, compareOfLessAndEq, Nat.add_lt_add_iff_left,
        Nat.add_left_cancel_iff]
    · have hlt : b.toNat * 256 ^ bs.length + value bs < a.toNat * 256 ^ bs.length + value as := by
        have := Nat.mul_le_mul_right (256 ^ bs.length) hab
        rw [Nat.succ_mul] at this
        omega
      rw [Nat.compare_eq_gt.mpr hab, Nat.compare_eq_gt.mpr hlt]
      rfl

theorem value_injective {as bs : List UInt8} (h : as.length = bs.length)
    (hv : value as = value bs) : as = bs := by
  have hc : compare as bs = .eq := by
    rw [compare_eq_compare_value h, hv]
    exact Nat.compare_eq_eq.mpr rfl
  exact Std.LawfulEqCmp.eq_of_compare hc

theorem bytes_injective {w m n : ℕ} (hm : m < 256 ^ w) (hn : n < 256 ^ w)
    (h : bytes w m = bytes w n) : m = n := by
  rw [← value_bytes_of_lt hm, h, value_bytes_of_lt hn]

/-! ## The minimal encoding and its left alignment -/

/-- The big-endian bytes of `n` without leading zero bytes; empty for zero. -/
def minimal (n : ℕ) : List UInt8 := (Nat.digits 256 n).reverse.map UInt8.ofNat

/-- `n` written minimally into the front of a zeroed buffer of `w` bytes. -/
def leftAlign (w n : ℕ) : List UInt8 :=
  (minimal n).take w ++ List.replicate (w - (minimal n).length) 0

theorem length_minimal (n : ℕ) : (minimal n).length = (Nat.digits 256 n).length := by
  simp [minimal]

@[simp] theorem length_leftAlign (w n : ℕ) : (leftAlign w n).length = w := by
  simp only [leftAlign, List.length_append, List.length_take, List.length_replicate]
  omega

theorem value_map_ofNat_reverse (ds : List ℕ) (h : ∀ d ∈ ds, d < 256) :
    value (ds.reverse.map UInt8.ofNat) = Nat.ofDigits 256 ds := by
  induction ds with
  | nil => rfl
  | cons d ds ih =>
    have hd : d % 2 ^ 8 = d := Nat.mod_eq_of_lt (h d List.mem_cons_self)
    rw [List.reverse_cons, List.map_append, List.map_singleton, value_concat,
      ih fun e he ↦ h e (List.mem_cons_of_mem d he), Nat.ofDigits_cons, UInt8.toNat_ofNat', hd]
    exact Nat.add_comm _ _

@[simp] theorem value_minimal (n : ℕ) : value (minimal n) = n := by
  rw [minimal, value_map_ofNat_reverse _ fun d hd ↦ Nat.digits_lt_base (by norm_num) hd,
    Nat.ofDigits_digits]

theorem length_minimal_le {w n : ℕ} (h : n < 256 ^ w) : (minimal n).length ≤ w := by
  rw [length_minimal]
  exact (Nat.digits_length_le_iff (by norm_num) n).mpr h

theorem lt_pow_length_minimal (n : ℕ) : n < 256 ^ (minimal n).length := by
  rw [length_minimal]
  exact Nat.lt_base_pow_length_digits (by norm_num)

theorem length_minimal_mul_add {w n i : ℕ} (hn : 0 < n) (hi : i < 256 ^ w) :
    (minimal (n * 256 ^ w + i)).length = (minimal n).length + w := by
  have hpos : 0 < 256 ^ w := Nat.pow_pos (by norm_num)
  have hne : n * 256 ^ w + i ≠ 0 := by positivity
  have hlo : 256 ^ (Nat.log 256 n + w) ≤ n * 256 ^ w + i := by
    rw [Nat.pow_add]
    exact (Nat.mul_le_mul_right _ (Nat.pow_log_le_self 256 hn.ne')).trans (Nat.le_add_right _ _)
  have hhi : n * 256 ^ w + i < 256 ^ (Nat.log 256 n + w + 1) := by
    have hlt : n + 1 ≤ 256 ^ (Nat.log 256 n + 1) := Nat.lt_pow_succ_log_self (by norm_num) n
    calc n * 256 ^ w + i < (n + 1) * 256 ^ w := by rw [Nat.succ_mul]; omega
      _ ≤ 256 ^ (Nat.log 256 n + 1) * 256 ^ w := Nat.mul_le_mul_right _ hlt
      _ = 256 ^ (Nat.log 256 n + w + 1) := by rw [← Nat.pow_add]; congr 1; omega
  rw [length_minimal, length_minimal, Nat.length_digits 256 _ (by norm_num) hne,
    Nat.length_digits 256 _ (by norm_num) hn.ne', Nat.log_eq_of_pow_le_of_lt_pow hlo hhi]
  omega

theorem leftAlign_eq {w n : ℕ} (h : n < 256 ^ w) :
    leftAlign w n = minimal n ++ List.replicate (w - (minimal n).length) 0 := by
  rw [leftAlign, List.take_of_length_le (length_minimal_le h)]

/-- Left alignment multiplies by the place value of the bytes it appends. -/
theorem value_leftAlign {w n : ℕ} (h : n < 256 ^ w) :
    value (leftAlign w n) = n * 256 ^ (w - (minimal n).length) := by
  rw [leftAlign_eq h, value_append, value_replicate_zero, value_minimal, List.length_replicate,
    Nat.add_zero]

theorem le_value_leftAlign {w n : ℕ} (h : n < 256 ^ w) : n ≤ value (leftAlign w n) := by
  rw [value_leftAlign h]
  exact Nat.le_mul_of_pos_right n (by positivity)

/-- A number that already fills the buffer keeps its fixed-width encoding. -/
theorem leftAlign_of_le {w n : ℕ} (h : n < 256 ^ (w + 1)) (hn : 256 ^ w ≤ n) :
    leftAlign (w + 1) n = bytes (w + 1) n := by
  have hlen : (minimal n).length = w + 1 := by
    refine le_antisymm (length_minimal_le h) ?_
    rw [length_minimal]
    exact (Nat.lt_digits_length_iff (by norm_num) n).mpr hn
  refine value_injective (by simp) ?_
  rw [value_leftAlign h, hlen, Nat.sub_self, pow_zero, Nat.mul_one, value_bytes_of_lt h]

theorem le_value_leftAlign_of_pos {w n : ℕ} (h : n < 256 ^ (w + 1)) (hn : 0 < n) :
    256 ^ w ≤ value (leftAlign (w + 1) n) := by
  have hpos : 0 < (minimal n).length := by
    rw [length_minimal]
    exact (Nat.lt_digits_length_iff (by norm_num) n).mpr (by rwa [pow_zero])
  have hle := length_minimal_le h
  have hlow : 256 ^ ((minimal n).length - 1) ≤ n := by
    refine (Nat.lt_digits_length_iff (by norm_num) n).mp ?_
    rw [← length_minimal]
    omega
  rw [value_leftAlign h]
  calc 256 ^ w
      = 256 ^ ((minimal n).length - 1) * 256 ^ (w + 1 - (minimal n).length) := by
        rw [← pow_add]
        congr 1
        omega
    _ ≤ n * 256 ^ (w + 1 - (minimal n).length) := Nat.mul_le_mul_right _ hlow

private theorem minimal_mul_pow {n : ℕ} (hn : 0 < n) (k : ℕ) :
    minimal (n * 256 ^ k) = minimal n ++ List.replicate k 0 := by
  rw [minimal, Nat.mul_comm, Nat.digits_base_pow_mul (by norm_num) hn, List.reverse_append,
    List.map_append, List.reverse_replicate, List.map_replicate, minimal]
  rfl

private theorem leftAlign_mul_pow {w n k : ℕ} (h : n * 256 ^ k < 256 ^ w) :
    leftAlign w (n * 256 ^ k) = leftAlign w n := by
  rcases Nat.eq_zero_or_pos n with rfl | hn
  · rw [Nat.zero_mul]
  · have hlt : n < 256 ^ w := lt_of_le_of_lt (Nat.le_mul_of_pos_right n (by positivity)) h
    have hlen := length_minimal_le h
    rw [minimal_mul_pow hn, List.length_append, List.length_replicate] at hlen
    rw [leftAlign_eq h, leftAlign_eq hlt, minimal_mul_pow hn, List.append_assoc,
      List.replicate_append_replicate, List.length_append, List.length_replicate]
    congr 2
    omega

/-- **What left alignment confuses**: exactly the numbers that differ by trailing zero bytes. -/
theorem leftAlign_eq_iff {w m n : ℕ} (hm : m < 256 ^ w) (hn : n < 256 ^ w) :
    leftAlign w m = leftAlign w n ↔ ∃ k, m = n * 256 ^ k ∨ n = m * 256 ^ k := by
  constructor
  · intro h
    have hv := congrArg value h
    rw [value_leftAlign hm, value_leftAlign hn] at hv
    generalize w - (minimal m).length = i at hv
    generalize w - (minimal n).length = j at hv
    rcases Nat.le_total i j with hij | hij
    · refine ⟨j - i, Or.inl (Nat.eq_of_mul_eq_mul_right (show 0 < 256 ^ i by positivity) ?_)⟩
      rw [hv, Nat.mul_assoc, ← pow_add, Nat.sub_add_cancel hij]
    · refine ⟨i - j, Or.inr (Nat.eq_of_mul_eq_mul_right (show 0 < 256 ^ j by positivity) ?_)⟩
      rw [← hv, Nat.mul_assoc, ← pow_add, Nat.sub_add_cancel hij]
  · rintro ⟨k, rfl | rfl⟩
    · exact leftAlign_mul_pow hm
    · exact (leftAlign_mul_pow hn).symm

end BigEndian
