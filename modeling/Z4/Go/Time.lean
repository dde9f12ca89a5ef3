import Mathlib

/-!
# Go's wall clock

`time.Time`, `time.Duration` and the protobuf `Timestamp`, as far as the queue uses them. A `Time`
is a count of seconds since the first of January of year one, held in an `int64`, and a nanosecond
within the second. The monotonic reading and the location are left out: neither reaches a task id.

All arithmetic wraps or saturates where Go's does; a wrapping `int64` operation is written as its
exact integer result put through `Int64.ofInt`. To say what a computation was *meant* to yield,
`Time.nanos` reads a time as an exact integer of nanoseconds since the Unix epoch. The two meet in
`unixNano_toUInt64`: the eight bytes an id stores are the exact value modulo `2 ^ 64`, whatever
wrapped on the way.
-/

namespace Z4

/-! ## Machine words -/

theorem bmod_emod_two_pow (x : ℤ) : x.bmod (2 ^ 64) % 2 ^ 64 = x % 2 ^ 64 :=
  Int.bmod_emod (x := x) (m := 2 ^ 64)

theorem bmod_two_pow_of_le {x : ℤ} (hlo : -2 ^ 63 ≤ x) (hhi : x < 2 ^ 63) :
    x.bmod (2 ^ 64) = x := Int.bmod_eq_of_le (by omega) (by omega)

theorem toInt_ofInt_emod (x : ℤ) : (Int64.ofInt x).toInt % 2 ^ 64 = x % 2 ^ 64 := by
  rw [Int64.toInt_ofInt]
  exact bmod_emod_two_pow x

theorem toNat_toUInt64 (x : Int64) : (x.toUInt64.toNat : ℤ) = x.toInt % 2 ^ 64 := by
  have := x.toBitVec.isLt
  rw [← Int64.toNat_toBitVec, ← Int64.toInt_toBitVec, BitVec.toInt_eq_toNat_bmod,
    bmod_emod_two_pow]
  omega

/-! ## Times -/

/-- `time.Duration`: nanoseconds in an `int64`. -/
abbrev Duration := Int64

/-- `time.Second`. -/
def second : Duration := 1000000000

/-- `time.Time`, without its monotonic reading and its location. -/
structure Time where
  /-- Seconds since the first of January of year one. -/
  ext : Int64
  /-- Nanoseconds within the second. -/
  nsec : ℕ
  nsec_lt : nsec < 10 ^ 9
deriving DecidableEq

/-- Seconds between year one and the Unix epoch. -/
def unixToInternal : ℤ := 62135596800

namespace Time

/-- `time.Time{}`. -/
def zero : Time := ⟨0, 0, by norm_num⟩

/-- `Time.IsZero`. -/
def isZero (t : Time) : Bool := t.ext == 0 && t.nsec == 0

/-- `Time.Unix`: seconds since the Unix epoch. -/
def unix (t : Time) : Int64 := .ofInt (t.ext.toInt - unixToInternal)

/-- `Time.UnixNano`: nanoseconds since the Unix epoch, wrapped into an `int64`. -/
def unixNano (t : Time) : Int64 := .ofInt (t.unix.toInt * 10 ^ 9 + t.nsec)

/-- `time.Unix`. Go's truncated quotient, corrected when the remainder is negative, is the floor. -/
def ofUnix (sec nsec : Int64) : Time where
  ext := .ofInt (sec.toInt + nsec.toInt / 10 ^ 9 + unixToInternal)
  nsec := (nsec.toInt % 10 ^ 9).toNat
  nsec_lt := by omega

@[simp] theorem ofUnix_ext (sec nsec : Int64) :
    (ofUnix sec nsec).ext = .ofInt (sec.toInt + nsec.toInt / 10 ^ 9 + unixToInternal) := rfl

@[simp] theorem ofUnix_nsec (sec nsec : Int64) :
    ((ofUnix sec nsec).nsec : ℤ) = nsec.toInt % 10 ^ 9 :=
  Int.toNat_of_nonneg (by omega)

/-- `Time.addSec`, which saturates when the sum leaves the `int64` range. -/
def addSec (ext d : Int64) : Int64 :=
  let sum : Int64 := .ofInt (ext.toInt + d.toInt)
  if decide (ext < sum) == decide (0 < d) then sum
  else if 0 < d then Int64.maxValue else -Int64.maxValue

/-- `Time.Add`. -/
def add (t : Time) (d : Duration) : Time where
  ext := addSec t.ext (.ofInt ((t.nsec + d.toInt) / 10 ^ 9))
  nsec := ((t.nsec + d.toInt) % 10 ^ 9).toNat
  nsec_lt := by omega

/-- `Time.Before`. -/
def before (t u : Time) : Bool := t.ext < u.ext || (t.ext == u.ext && t.nsec < u.nsec)

/-- `Time.Sub`: the difference if it fits a `Duration`, else the nearest bound. -/
def sub (t u : Time) : Duration :=
  let d := .ofInt ((t.ext.toInt - u.ext.toInt) * 10 ^ 9 + (t.nsec - u.nsec))
  if u.add d = t then d else if t.before u then Int64.minValue else Int64.maxValue

/-- The exact instant, in nanoseconds since the Unix epoch. -/
def nanos (t : Time) : ℤ := t.unix.toInt * 10 ^ 9 + t.nsec

/-- **What an id keeps of a time**: the exact instant modulo `2 ^ 64`. -/
theorem unixNano_toUInt64 (t : Time) : (t.unixNano.toUInt64.toNat : ℤ) = t.nanos % 2 ^ 64 := by
  rw [toNat_toUInt64, unixNano, toInt_ofInt_emod, nanos]

theorem unix_toInt_bounds (t : Time) :
    t.unix.toInt * 10 ^ 9 ≤ t.nanos ∧ t.nanos < t.unix.toInt * 10 ^ 9 + 10 ^ 9 := by
  have := t.nsec_lt
  rw [nanos]
  omega

theorem toInt_ext {t : Time} (hlo : -2 ^ 81 ≤ t.nanos) (hhi : t.nanos ≤ 2 ^ 81) :
    t.ext.toInt = t.unix.toInt + 62135596800 := by
  have hb := t.unix_toInt_bounds
  have h1 := t.ext.toInt_lt
  have h2 := t.ext.le_toInt
  have h3 : t.unix.toInt = (t.ext.toInt - 62135596800).bmod (2 ^ 64) := Int64.toInt_ofInt
  rcases lt_or_ge (t.ext.toInt - 62135596800) (-2 ^ 63) with hw | hw
  · rw [Int.bmod_eq_emod] at h3
    split at h3 <;> omega
  · rw [bmod_two_pow_of_le hw (by omega)] at h3
    omega

/-- `Before` is the order of instants, within `2 ^ 81` nanoseconds of the epoch. -/
theorem before_iff_nanos_lt {t u : Time} (ht : -2 ^ 81 ≤ t.nanos ∧ t.nanos ≤ 2 ^ 81)
    (hu : -2 ^ 81 ≤ u.nanos ∧ u.nanos ≤ 2 ^ 81) : t.before u = true ↔ t.nanos < u.nanos := by
  have h1 := toInt_ext ht.1 ht.2
  have h2 := toInt_ext hu.1 hu.2
  have h3 := t.nsec_lt
  have h4 := u.nsec_lt
  rw [before, Bool.or_eq_true, Bool.and_eq_true, decide_eq_true_eq, decide_eq_true_eq, beq_iff_eq,
    Int64.lt_iff_toInt_lt, ← Int64.toInt_inj, nanos, nanos]
  omega

theorem toInt_ext_add {t : Time} {d : Duration}
    (hlo : -2 ^ 63 ≤ t.ext.toInt + (t.nsec + d.toInt) / 10 ^ 9)
    (hhi : t.ext.toInt + (t.nsec + d.toInt) / 10 ^ 9 < 2 ^ 63) :
    (t.add d).ext.toInt = t.ext.toInt + (t.nsec + d.toInt) / 10 ^ 9 := by
  have hd := d.toInt_lt
  have hd' := d.le_toInt
  have hn := t.nsec_lt
  have hq : (Int64.ofInt ((t.nsec + d.toInt) / 10 ^ 9)).toInt = (t.nsec + d.toInt) / 10 ^ 9 :=
    Int64.toInt_ofInt_of_le (by omega) (by omega)
  have hsum : (Int64.ofInt (t.ext.toInt + (t.nsec + d.toInt) / 10 ^ 9)).toInt
      = t.ext.toInt + (t.nsec + d.toInt) / 10 ^ 9 :=
    Int64.toInt_ofInt_of_le (by omega) (by omega)
  rw [add, addSec, hq]
  dsimp only
  rw [if_pos, hsum]
  rw [beq_iff_eq, decide_eq_decide, Int64.lt_iff_toInt_lt, Int64.lt_iff_toInt_lt, hsum, hq]
  exact lt_add_iff_pos_right _

private theorem toInt_unix_emod (t : Time) :
    t.unix.toInt % 2 ^ 64 = (t.ext.toInt - unixToInternal) % 2 ^ 64 := toInt_ofInt_emod _

theorem nanos_add_emod {t : Time} {d : Duration}
    (hlo : -2 ^ 63 ≤ t.ext.toInt + (t.nsec + d.toInt) / 10 ^ 9)
    (hhi : t.ext.toInt + (t.nsec + d.toInt) / 10 ^ 9 < 2 ^ 63) :
    (t.add d).nanos % 2 ^ 64 = (t.nanos + d.toInt) % 2 ^ 64 := by
  have hunix := toInt_unix_emod (t.add d)
  have hunix' := toInt_unix_emod t
  have hnsec : ((t.add d).nsec : ℤ) = (t.nsec + d.toInt) % 10 ^ 9 :=
    Int.toNat_of_nonneg (by omega)
  rw [toInt_ext_add hlo hhi] at hunix
  rw [nanos, nanos, hnsec]
  omega

/-- Adding a duration is exact on every time within `2 ^ 80` nanoseconds of the epoch. -/
theorem nanos_add {t : Time} (hlo : -2 ^ 80 ≤ t.nanos) (hhi : t.nanos ≤ 2 ^ 80) (d : Duration) :
    (t.add d).nanos = t.nanos + d.toInt := by
  have hb := t.unix_toInt_bounds
  have hd := d.toInt_lt
  have hd' := d.le_toInt
  have hn := t.nsec_lt
  -- the seconds since year one, exactly
  have hext := toInt_ext (by omega : -2 ^ 81 ≤ t.nanos) (by omega)
  have hadd := toInt_ext_add (t := t) (d := d) (by omega) (by omega)
  have hunix : (t.add d).unix.toInt = t.unix.toInt + (t.nsec + d.toInt) / 10 ^ 9 := by
    rw [unix, hadd, hext, unixToInternal, Int64.toInt_ofInt_of_le (by omega) (by omega)]
    omega
  rw [nanos, hunix, nanos, add]
  push_cast
  omega

theorem nanos_of_isZero {t : Time} (h : t.isZero) : t.nanos = -62135596800 * 10 ^ 9 := by
  rw [isZero, Bool.and_eq_true, beq_iff_eq, beq_iff_eq] at h
  rw [nanos, unix, h.1, h.2]
  decide

theorem exists_nanos {x : ℤ} (hlo : -2 ^ 80 ≤ x) (hhi : x ≤ 2 ^ 80) : ∃ t : Time, t.nanos = x := by
  have hext : (Int64.ofInt (x / 10 ^ 9 + unixToInternal)).toInt = x / 10 ^ 9 + unixToInternal := by
    rw [unixToInternal]
    exact Int64.toInt_ofInt_of_le (by omega) (by omega)
  refine ⟨⟨.ofInt (x / 10 ^ 9 + unixToInternal), (x % 10 ^ 9).toNat, by omega⟩, ?_⟩
  rw [nanos, unix, hext, add_sub_cancel_right, Int64.toInt_ofInt_of_le (by omega) (by omega)]
  push_cast
  omega

private theorem toInt_unix_ofUnix_emod (sec nsec : Int64) :
    (ofUnix sec nsec).unix.toInt % 2 ^ 64 = (sec.toInt + nsec.toInt / 10 ^ 9) % 2 ^ 64 := by
  rw [unix, ofUnix_ext, toInt_ofInt_emod, Int.sub_emod, toInt_ofInt_emod, ← Int.sub_emod,
    add_sub_cancel_right]

/-- `time.Unix` keeps the instant modulo `2 ^ 64` even where the seconds wrap. -/
theorem nanos_ofUnix_emod (sec nsec : Int64) :
    (ofUnix sec nsec).nanos % 2 ^ 64 = (sec.toInt * 10 ^ 9 + nsec.toInt) % 2 ^ 64 := by
  rw [nanos, ofUnix_nsec, Int.add_emod, Int.mul_emod, toInt_unix_ofUnix_emod, ← Int.mul_emod,
    ← Int.add_emod]
  congr 1
  omega

/-- The zero time is reached by `time.Unix` only from the first of January of year one. -/
theorem instant_of_isZero {sec : Int64} {nsec : Int32}
    (h : (ofUnix sec nsec.toInt64).isZero) :
    sec.toInt * 10 ^ 9 + nsec.toInt = -62135596800 * 10 ^ 9 := by
  have h1 := nsec.toInt_lt
  have h2 := nsec.le_toInt
  have h3 := sec.toInt_lt
  have h4 := sec.le_toInt
  rw [isZero, Bool.and_eq_true, beq_iff_eq, beq_iff_eq] at h
  obtain ⟨hext, hnsec⟩ := h
  have hrem := ofUnix_nsec sec nsec.toInt64
  have hzero := congrArg Int64.toInt hext
  rw [ofUnix_ext, Int32.toInt_toInt64, Int64.toInt_ofInt, Int64.toInt_zero, unixToInternal,
    Int.bmod_eq_emod, Int64.size] at hzero
  rw [hnsec, Int32.toInt_toInt64] at hrem
  split at hzero <;> omega

end Time

theorem toNat_unixNano (t : Time) (hlo : 0 ≤ t.nanos) (hhi : t.nanos < 2 ^ 64) :
    (t.unixNano.toUInt64.toNat : ℤ) = t.nanos := by
  rw [Time.unixNano_toUInt64, Int.emod_eq_of_lt hlo hhi]

/-! ## Protobuf timestamps -/

/-- `timestamppb.Timestamp`. Nothing on the wire bounds its fields further than their types. -/
structure Timestamp where
  seconds : Int64
  nanos : Int32
deriving DecidableEq

namespace Timestamp

/-- `Timestamp.AsTime`. -/
def asTime (ts : Timestamp) : Time := .ofUnix ts.seconds ts.nanos.toInt64

/-- `timestamppb.New`. -/
def new (t : Time) : Timestamp := ⟨t.unix, Int32.ofNat t.nsec⟩

/-- The exact instant the timestamp denotes, in nanoseconds since the Unix epoch. -/
def instant (ts : Timestamp) : ℤ := ts.seconds.toInt * 10 ^ 9 + ts.nanos.toInt

@[simp] theorem instant_new (t : Time) : (new t).instant = t.nanos := by
  have hn := t.nsec_lt
  have h : (Int32.ofNat t.nsec).toInt = t.nsec := Int32.toInt_ofNat_of_lt (by omega)
  rw [instant, new, h, Time.nanos]

@[simp] theorem asTime_new (t : Time) : (new t).asTime = t := by
  have hn := t.nsec_lt
  have hnsec : (Int32.ofNat t.nsec).toInt64.toInt = t.nsec := by
    rw [Int32.toInt_toInt64, Int32.toInt_ofNat_of_lt (by omega)]
  have hext : Int64.ofInt (t.unix.toInt + unixToInternal) = t.ext := by
    rw [← Int64.toInt_inj, Int64.toInt_ofInt, Time.unix, Int64.toInt_ofInt]
    rw [show Int64.size = 2 ^ 64 from rfl, Int.bmod_add_bmod, Int.sub_add_cancel,
      bmod_two_pow_of_le t.ext.le_toInt t.ext.toInt_lt]
  obtain ⟨ext, nsec, hlt⟩ := t
  rw [asTime, new, Time.ofUnix, Time.mk.injEq, hnsec]
  refine ⟨?_, by dsimp only; omega⟩
  rw [Int.ediv_eq_zero_of_lt (by omega) (by dsimp only; omega), Int.add_zero]
  exact hext

theorem nanos_asTime_emod (ts : Timestamp) : ts.asTime.nanos % 2 ^ 64 = ts.instant % 2 ^ 64 := by
  rw [asTime, Time.nanos_ofUnix_emod, Int32.toInt_toInt64, instant]

end Timestamp

end Z4
