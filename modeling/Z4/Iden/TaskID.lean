import Z4.Foundations.BigEndian
import Z4.Foundations.Numerals
import Z4.Go.Time

/-!
# Task identifiers

A task id is sixteen bytes: the run time in nanoseconds and the index of the task in its queue, both
big-endian. Outside the store it travels as text, the base-62 numeral of the sixteen bytes read as
one number, and `parseString` reads that text back.

## What the text loses

A numeral has no leading zeros, so the text does not say how many leading zero bytes an id had. The
parser copies the minimal big-endian bytes of the number to the *front* of the id, which is the
right place only when the number fills all sixteen bytes. `parseString_string` says what comes back
in general, `reparsed_of_le` that it is the same id when the leading byte is not zero.

The parser also takes texts that are not an id's: it drops signs and leading zeros, and cuts numbers
of more than sixteen bytes.
-/

namespace Z4

/-- A Go string: any sequence of bytes. -/
abbrev GoString := List UInt8

/-- The bytes of an ASCII string literal of the source. -/
def lit (s : String) : GoString := s.toList.map fun c ↦ .ofNat c.toNat

/-! ## Base 62 -/

/-- The digits of `math/big`: `0`–`9`, `a`–`z`, `A`–`Z`. -/
def symbol (d : ℕ) : UInt8 :=
  if d < 10 then .ofNat (48 + d) else if d < 36 then .ofNat (97 + (d - 10))
  else .ofNat (65 + (d - 36))

/-- The value of a base-62 digit. -/
def digit (c : UInt8) : Option ℕ :=
  if 48 ≤ c ∧ c ≤ 57 then some (c.toNat - 48)
  else if 97 ≤ c ∧ c ≤ 122 then some (c.toNat - 97 + 10)
  else if 65 ≤ c ∧ c ≤ 90 then some (c.toNat - 65 + 36)
  else none

/-- `big.Int.SetString` at base 62: an optional sign and at least one digit, nothing else. -/
def setString : GoString → Option ℤ
  | 43 :: v => (Numerals.read 62 digit v).map Int.ofNat
  | 45 :: v => (Numerals.read 62 digit v).map fun n ↦ -Int.ofNat n
  | v => (Numerals.read 62 digit v).map Int.ofNat

theorem digit_symbol : ∀ d < 62, digit (symbol d) = some d := by decide

private theorem symbol_ne_sign : ∀ d < 62, symbol d ≠ 43 ∧ symbol d ≠ 45 := by decide

theorem setString_write (n : ℕ) : setString (Numerals.write 62 symbol n) = some (n : ℤ) := by
  have hread : Numerals.read 62 digit (Numerals.write 62 symbol n) = some n :=
    Numerals.read_write (by norm_num) digit_symbol n
  have hne : Numerals.write 62 symbol n ≠ [] := Numerals.write_ne_nil n
  obtain ⟨c, v, hv⟩ := List.exists_cons_of_ne_nil hne
  have hmem : c ∈ Numerals.write 62 symbol n := hv ▸ List.mem_cons_self
  obtain ⟨d, hd, hc⟩ := Numerals.mem_write (by norm_num) hmem
  have hsign := symbol_ne_sign d hd
  rw [← hc] at hsign
  rw [hv] at hread ⊢
  rw [setString, hread]
  · rfl
  · exact fun w hw ↦ hsign.1 (List.cons.inj hw).1
  · exact fun w hw ↦ hsign.2 (List.cons.inj hw).1

/-! ## Ids -/

/-- `iden.TaskID`. -/
structure TaskID where
  bytes : List UInt8
  length_bytes : bytes.length = 16
deriving DecidableEq

/-- `math.MaxUint64`. -/
def maxUint64 : UInt64 := 18446744073709551615

/-- The errors of the package. -/
inductive IdenError where
  /-- `ErrNoTime`. -/
  | noTime
  /-- "invalid task id: %s". -/
  | invalidTaskID (v : GoString)
deriving DecidableEq

namespace TaskID

/-- `iden.New`. -/
def new (ts : Time) (index : UInt64) : TaskID where
  bytes := BigEndian.bytes 8 ts.unixNano.toUInt64.toNat ++ BigEndian.bytes 8 index.toNat
  length_bytes := by simp

/-- `iden.Min`. -/
def min : TaskID := new (.ofUnix 0 0) 0

/-- `iden.Max`. -/
def max : TaskID := new (.ofUnix Int64.maxValue 0) maxUint64

/-- `iden.zeroTime`: what the zero time reads as after it went through an id. -/
def zeroTime : Time := .ofUnix 0 Time.zero.unixNano

/-- The first eight bytes. -/
def timestamp (id : TaskID) : UInt64 := .ofNat (BigEndian.value (id.bytes.take 8))

/-- `TaskID.MustTime`. -/
def mustTime (id : TaskID) : Time := .ofUnix 0 id.timestamp.toInt64

/-- `TaskID.Time`. -/
def time (id : TaskID) : Except IdenError Time :=
  if id.mustTime = zeroTime then .error .noTime else .ok id.mustTime

/-- `TaskID.Index`. -/
def index (id : TaskID) : UInt64 := .ofNat (BigEndian.value (id.bytes.drop 8))

/-- `TaskID.String`. -/
def string (id : TaskID) : GoString := Numerals.write 62 symbol (BigEndian.value id.bytes)

end TaskID

/-- `iden.ParseString`. The bytes of the absolute value are copied to the front of the id. -/
def parseString (v : GoString) : Except IdenError TaskID :=
  match setString v with
  | none => .error (.invalidTaskID v)
  | some i => .ok ⟨BigEndian.leftAlign 16 i.natAbs, by simp⟩

/-! ## Ids as numbers -/

namespace TaskID

/-- The id as one number. -/
def toNat (id : TaskID) : ℕ := BigEndian.value id.bytes

theorem toNat_lt (id : TaskID) : id.toNat < 256 ^ 16 := by
  have h := BigEndian.value_lt id.bytes
  rwa [id.length_bytes] at h

theorem ext_toNat {a b : TaskID} (h : a.toNat = b.toNat) : a = b := by
  cases a with | mk as ha =>
  cases b with | mk bs hb =>
  congr
  exact BigEndian.value_injective (ha.trans hb.symm) h

theorem exists_toNat {n : ℕ} (h : n < 256 ^ 16) : ∃ id : TaskID, id.toNat = n :=
  ⟨⟨BigEndian.bytes 16 n, by simp⟩, BigEndian.value_bytes_of_lt h⟩

/-- Ids compare as numbers. -/
theorem compare_bytes (a b : TaskID) : compare a.bytes b.bytes = compare a.toNat b.toNat :=
  BigEndian.compare_eq_compare_value (a.length_bytes.trans b.length_bytes.symm)

theorem toNat_new (ts : Time) (i : UInt64) :
    (new ts i).toNat = ts.unixNano.toUInt64.toNat * 2 ^ 64 + i.toNat := by
  have h1 := ts.unixNano.toUInt64.toNat_lt
  have h2 := i.toNat_lt
  rw [toNat, new, BigEndian.value_append, BigEndian.length_bytes,
    BigEndian.value_bytes_of_lt (by omega), BigEndian.value_bytes_of_lt (by omega)]
  norm_num

theorem toNat_eq (id : TaskID) : id.toNat = id.timestamp.toNat * 2 ^ 64 + id.index.toNat := by
  have hlen := id.length_bytes
  have h1 := BigEndian.value_lt (id.bytes.take 8)
  have h2 := BigEndian.value_lt (id.bytes.drop 8)
  have hsplit := BigEndian.value_append (id.bytes.take 8) (id.bytes.drop 8)
  rw [List.take_append_drop] at hsplit
  rw [List.length_take, hlen] at h1
  rw [List.length_drop, hlen] at h2 hsplit
  rw [toNat, hsplit, timestamp, index, UInt64.toNat_ofNat', UInt64.toNat_ofNat',
    Nat.mod_eq_of_lt (by simpa using h1), Nat.mod_eq_of_lt (by simpa using h2)]
  norm_num

theorem index_toNat (id : TaskID) : id.index.toNat = id.toNat % 2 ^ 64 := by
  have h := id.toNat_eq
  have hi := id.index.toNat_lt
  omega

@[simp] theorem index_new (ts : Time) (i : UInt64) : (new ts i).index = i := by
  have hi := i.toNat_lt
  rw [← UInt64.toNat_inj, index_toNat, toNat_new]
  omega

@[simp] theorem unixNano_mustTime (id : TaskID) : id.mustTime.unixNano.toUInt64 = id.timestamp := by
  have h1 := id.timestamp.toNat_lt
  have h2 := toNat_toUInt64 id.timestamp.toInt64
  rw [← UInt64.toNat_inj]
  zify
  rw [Time.unixNano_toUInt64, mustTime, Time.nanos_ofUnix_emod, Int64.toInt_zero, Int.zero_mul,
    Int.zero_add, ← h2, UInt64.toUInt64_toInt64]

theorem timestamp_toNat (id : TaskID) : id.timestamp.toNat = id.toNat / 2 ^ 64 := by
  have h := id.toNat_eq
  have hi := id.index.toNat_lt
  omega

theorem timestamp_new (ts : Time) (i : UInt64) :
    (new ts i).timestamp = ts.unixNano.toUInt64 := by
  have hi := i.toNat_lt
  rw [← UInt64.toNat_inj, timestamp_toNat, toNat_new]
  omega

/-- The first eight bytes of an id that was made without a run time. -/
def zeroStamp : UInt64 := Time.zero.unixNano.toUInt64

theorem toNat_zeroStamp : zeroStamp.toNat = 11651379494838206464 := by decide

/-- An id has no time exactly when its first eight bytes are those of the zero time. -/
theorem mustTime_eq_zeroTime_iff {id : TaskID} :
    id.mustTime = zeroTime ↔ id.timestamp = zeroStamp := by
  constructor
  · intro h
    rw [← unixNano_mustTime, h]
    decide
  · intro h
    rw [mustTime, h, zeroStamp, Int64.toInt64_toUInt64, zeroTime]

theorem toNat_min : min.toNat = 0 := by decide +kernel

/-! ## The round trip through text -/

/-- The id that is read back from the text of `id`. -/
def reparsed (id : TaskID) : TaskID := ⟨BigEndian.leftAlign 16 id.toNat, by simp⟩

@[simp] theorem reparsed_bytes (id : TaskID) :
    id.reparsed.bytes = BigEndian.leftAlign 16 id.toNat := rfl

/-- **What the parser makes of an id's own text.** -/
theorem parseString_string (id : TaskID) : parseString id.string = .ok id.reparsed := by
  rw [parseString, string, setString_write]
  rfl

theorem toNat_reparsed (id : TaskID) :
    id.reparsed.toNat = id.toNat * 256 ^ (16 - (BigEndian.minimal id.toNat).length) :=
  BigEndian.value_leftAlign id.toNat_lt

theorem le_toNat_reparsed (id : TaskID) : id.toNat ≤ id.reparsed.toNat :=
  BigEndian.le_value_leftAlign id.toNat_lt

/-- An id whose leading byte is not zero survives the round trip. -/
theorem reparsed_of_le {id : TaskID} (h : 256 ^ 15 ≤ id.toNat) : id.reparsed = id := by
  refine ext_toNat ?_
  rw [toNat, reparsed_bytes, BigEndian.leftAlign_of_le id.toNat_lt h,
    BigEndian.value_bytes_of_lt id.toNat_lt]

theorem le_toNat_reparsed_of_pos {id : TaskID} (h : 0 < id.toNat) :
    256 ^ 15 ≤ id.reparsed.toNat :=
  BigEndian.le_value_leftAlign_of_pos id.toNat_lt h

/-- The largest number that an id with the time bytes `r` is read back as: that of the largest
index, moved up by the leading zero bytes. -/
def lastReparsed (r : ℕ) : ℕ :=
  ((r + 1) * 2 ^ 64 - 1) * 256 ^ (8 - (BigEndian.minimal r).length)

theorem toNat_reparsed_new (ts : Time) (i : UInt64) (h : 0 < ts.unixNano.toUInt64.toNat) :
    (new ts i).reparsed.toNat = (ts.unixNano.toUInt64.toNat * 2 ^ 64 + i.toNat)
      * 256 ^ (8 - (BigEndian.minimal ts.unixNano.toUInt64.toNat).length) := by
  have hlen : (BigEndian.minimal (ts.unixNano.toUInt64.toNat * 2 ^ 64 + i.toNat)).length
      = (BigEndian.minimal ts.unixNano.toUInt64.toNat).length + 8 :=
    BigEndian.length_minimal_mul_add (w := 8) h (by simpa using i.toNat_lt)
  rw [toNat_reparsed, toNat_new, hlen]
  congr 2
  omega

theorem toNat_reparsed_new_le (ts : Time) (i : UInt64) :
    (new ts i).reparsed.toNat ≤ lastReparsed ts.unixNano.toUInt64.toNat := by
  have hi := i.toNat_lt
  rcases Nat.eq_zero_or_pos ts.unixNano.toUInt64.toNat with hz | hpos
  · -- only the index is left, and it is moved to the front
    have hid : (new ts i).toNat = i.toNat := by
      rw [toNat_new, hz]
      omega
    have hlen : (BigEndian.minimal i.toNat).length ≤ 8 :=
      BigEndian.length_minimal_le (by simpa using hi)
    have hlt := BigEndian.lt_pow_length_minimal i.toNat
    have hfill : i.toNat * 256 ^ (8 - (BigEndian.minimal i.toNat).length) < 256 ^ 8 := by
      calc i.toNat * 256 ^ (8 - (BigEndian.minimal i.toNat).length)
          < 256 ^ (BigEndian.minimal i.toNat).length
              * 256 ^ (8 - (BigEndian.minimal i.toNat).length) := by
            exact Nat.mul_lt_mul_of_pos_right hlt (Nat.pow_pos (by norm_num))
        _ = 256 ^ 8 := by rw [← Nat.pow_add]; congr 1; omega
    have hexp : 16 - (BigEndian.minimal i.toNat).length
        = 8 - (BigEndian.minimal i.toNat).length + 8 := by omega
    have hzero : (BigEndian.minimal 0).length = 0 := by simp [BigEndian.length_minimal]
    rw [toNat_reparsed, hid, hexp, Nat.pow_add, ← Nat.mul_assoc, lastReparsed, hz, hzero]
    exact Nat.mul_le_mul_right _ (by omega)
  · rw [toNat_reparsed_new ts i hpos, lastReparsed]
    exact Nat.mul_le_mul_right _ (by omega)

theorem toNat_reparsed_new_max (ts : Time) :
    (new ts maxUint64).reparsed.toNat = lastReparsed ts.unixNano.toUInt64.toNat := by
  have hmax : maxUint64.toNat = 2 ^ 64 - 1 := by decide
  rcases Nat.eq_zero_or_pos ts.unixNano.toUInt64.toNat with hz | hpos
  · have hid : (new ts maxUint64).toNat = 2 ^ 64 - 1 := by
      rw [toNat_new, hz, hmax]
      omega
    rw [toNat_reparsed, hid, lastReparsed, hz, BigEndian.length_minimal, BigEndian.length_minimal]
    norm_num
  · have hnum : ts.unixNano.toUInt64.toNat * 2 ^ 64 + (2 ^ 64 - 1)
        = (ts.unixNano.toUInt64.toNat + 1) * 2 ^ 64 - 1 := by omega
    rw [toNat_reparsed_new ts _ hpos, lastReparsed, hmax, hnum]

theorem lastReparsed_of_le {r : ℕ} (hlo : 2 ^ 56 ≤ r) (hhi : r < 2 ^ 64) :
    lastReparsed r = (r + 1) * 2 ^ 64 - 1 := by
  have hlen : 8 ≤ (BigEndian.minimal r).length := by
    by_contra hlt
    have hle : 256 ^ (BigEndian.minimal r).length ≤ 256 ^ 7 :=
      Nat.pow_le_pow_right (by norm_num) (by omega)
    have := BigEndian.lt_pow_length_minimal r
    omega
  rw [lastReparsed, Nat.sub_eq_zero_of_le hlen, Nat.pow_zero, Nat.mul_one]

/-- Two ids are read back as one exactly when they differ by trailing zero bytes. -/
theorem reparsed_eq_iff {a b : TaskID} :
    a.reparsed = b.reparsed ↔ ∃ k, a.toNat = b.toNat * 256 ^ k ∨ b.toNat = a.toNat * 256 ^ k := by
  rw [← BigEndian.leftAlign_eq_iff a.toNat_lt b.toNat_lt, ← reparsed_bytes, ← reparsed_bytes]
  exact ⟨congrArg bytes, fun h ↦ ext_toNat (congrArg BigEndian.value h)⟩

/-- The time read back is none exactly when some shift of the id by whole bytes starts with the
bytes of the zero time. -/
theorem timestamp_reparsed_eq_zeroStamp_iff {id : TaskID} :
    id.reparsed.timestamp = zeroStamp ↔ ∃ k, id.toNat * 256 ^ k / 2 ^ 64 = zeroStamp.toNat := by
  rw [← UInt64.toNat_inj, timestamp_toNat]
  constructor
  · intro h
    rw [toNat_reparsed] at h
    exact ⟨_, h⟩
  · rintro ⟨k, hk⟩
    -- the shifted number fills all sixteen bytes, so it is the one that is read back
    have hlt : id.toNat * 256 ^ k < 256 ^ 16 := by
      rw [toNat_zeroStamp] at hk
      omega
    obtain ⟨b, hb⟩ := exists_toNat hlt
    have hself : b.reparsed = b := by
      refine reparsed_of_le ?_
      rw [toNat_zeroStamp] at hk
      omega
    rw [reparsed_eq_iff.mpr ⟨k, .inr hb⟩, hself, hb, hk]

theorem reparsed_eq_self_iff {id : TaskID} :
    id.reparsed = id ↔ id.toNat = 0 ∨ 256 ^ 15 ≤ id.toNat := by
  constructor
  · intro h
    rcases Nat.eq_zero_or_pos id.toNat with hz | hpos
    · exact .inl hz
    · have hle := le_toNat_reparsed_of_pos hpos
      rw [h] at hle
      exact .inr hle
  · rintro (hz | hle)
    · refine ext_toNat ?_
      rw [toNat_reparsed, hz, Nat.zero_mul]
    · exact reparsed_of_le hle

/-- **When an id survives its text.** -/
theorem parseString_string_eq_ok_iff (id : TaskID) :
    parseString id.string = .ok id ↔ id.toNat = 0 ∨ 256 ^ 15 ≤ id.toNat := by
  rw [parseString_string, Except.ok.injEq, reparsed_eq_self_iff]

/-- The text of the id with the number one is `1`, which is read as a one in the leading byte. -/
theorem parseString_string_new_epoch :
    (new (.ofUnix 0 0) 1).string = lit "1" ∧
      parseString (new (.ofUnix 0 0) 1).string ≠ .ok (new (.ofUnix 0 0) 1) := by
  decide +kernel

end TaskID

/-! ## The texts the parser accepts -/

/-- **When the parser accepts only an id's own text.** Signs, leading zeros, numbers of more than
sixteen bytes and nonzero numbers of fewer are accepted and stand for the id of another text. -/
theorem string_of_parseString_iff (v : GoString) :
    (∀ id, parseString v = .ok id → id.string = v) ↔
      setString v = none ∨
        ∃ n, v = Numerals.write 62 symbol n ∧ (n = 0 ∨ 256 ^ 15 ≤ n ∧ n < 256 ^ 16) := by
  constructor
  · intro h
    cases hv : setString v with
    | none => exact .inl rfl
    | some i =>
      -- the number of the text is that of the id, which its own text gives back
      obtain ⟨id, hid⟩ : ∃ id, parseString v = .ok id := by
        rw [parseString, hv]
        exact ⟨_, rfl⟩
      have hstring := h id hid
      have hself : id.reparsed = id := by
        rw [← hstring, TaskID.parseString_string, Except.ok.injEq] at hid
        exact hid
      refine .inr ⟨id.toNat, hstring.symm, ?_⟩
      exact (TaskID.reparsed_eq_self_iff.mp hself).imp_right fun hle ↦ ⟨hle, id.toNat_lt⟩
  · rintro (hnone | ⟨n, rfl, hn⟩) id hid
    · rw [parseString, hnone] at hid
      simp at hid
    · rw [parseString, setString_write, Except.ok.injEq] at hid
      have hvalue : BigEndian.value (BigEndian.leftAlign 16 n) = n := by
        rcases hn with rfl | ⟨hle, hlt⟩
        · rw [BigEndian.value_leftAlign (by norm_num), Nat.zero_mul]
        · rw [BigEndian.leftAlign_of_le hlt hle, BigEndian.value_bytes_of_lt hlt]
      have hbytes : id.bytes = BigEndian.leftAlign 16 n := (congrArg TaskID.bytes hid).symm
      rw [TaskID.string, hbytes, hvalue]

/-- The sign is dropped: `-1` and `1` name one id, and it is the id of a third text. -/
theorem parseString_negative : parseString (lit "-1") = parseString (lit "1") ∧
    ∃ id, parseString (lit "-1") = .ok id ∧ id.string ≠ lit "-1" ∧ id.string ≠ lit "1" :=
  ⟨by decide +kernel, ⟨BigEndian.leftAlign 16 1, by simp⟩, by decide +kernel⟩

end Z4
