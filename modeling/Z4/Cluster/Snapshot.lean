import Z4.Cluster.Recovery
import Z4.Foundations.Framing
import Z4.Storage.KeySpace

/-!
# The bytes of a snapshot

`SnapshotWriter.Persist` writes every pair of a pebble snapshot as two length-prefixed records.
`SnapshotReader.Restore` deletes two ranges of keys and writes back the pairs it reads. Here keys
and values are byte strings, so this is the real content of the store: what a value encodes plays
no part.

The ranges are `["task# ", "task#z")` and `["queue# ", "queue#z")`. Every key the program writes
falls into one of them, since the byte after `task#` or `queue#` is a lower-case letter below `z`.
That is why nothing of the old content survives a restore, and the result is the snapshot and
nothing else. `restore_persist_marshal` ties this to `restorePairs`, in terms of which recovery is
told.

## Damaged snapshots

Reading a key ends the snapshot when the input is used up. That is so also after the length of the
key has been read, and a snapshot that is cut there passes for a complete one. It is the only damage
that goes unnoticed: whatever else is accepted is a list of complete records.
-/

namespace Z4

open KeyValue Framing

abbrev Bytes := List UInt8

/-! ## Writing -/

/-- `SnapshotWriter.Persist` on the pairs that `snapshotScanner.ForEach` visits; the bytes that
reach the sink. -/
def persistPairs (pairs : List (Key × Bytes)) : Bytes :=
  pairs.flatMap fun e ↦ frame 4 e.1 ++ frame 4 e.2

/-- A database with the pebble snapshot that a `SnapshotWriter` holds on it. -/
structure Source where
  db : Store Bytes
  scanner : Option (Store Bytes) := none

/-- `StateMachine.Snapshot`. -/
def Source.snapshot (s : Source) : Source := { s with scanner := some s.db }

/-- A batch that is committed to the database. -/
def Source.write (s : Source) (batch : List (Write Bytes)) : Source :=
  { s with db := commit s.db batch }

/-- `SnapshotWriter.Persist`. -/
def Source.persist (s : Source) : Option Bytes := s.scanner.map fun db ↦ persistPairs db.toList

/-! ## Reading -/

/-- `pebbleStore.DeleteAll`. -/
def pebbleDeleteAll {V : Type*} (db : Store V) : Store V :=
  deleteRange (lit "queue# ") (lit "queue#z") (deleteRange (lit "task# ") (lit "task#z") db)

/-- `SnapshotReader.loadData`: pairs are written as they are read, until the input ends where a key
should start. -/
def loadData (src : Bytes) (db : Store Bytes) : Store Bytes × Option ReadError :=
  match hkey : readFrame 4 src with
  | .error .eof => (db, none)
  | .error .unexpectedEOF => (db, some .unexpectedEOF)
  | .ok (key, src') =>
    match hvalue : readFrame 4 src' with
    | .error e => (db, some e)
    | .ok (value, src'') =>
      have := length_of_readFrame hkey
      have := length_of_readFrame hvalue
      loadData src'' (db.insert key value)
termination_by src.length

/-- `SnapshotReader.Restore`, when the storage operations succeed. -/
def restore (src : Bytes) (db : Store Bytes) : Store Bytes × Option ReadError :=
  loadData src (pebbleDeleteAll db)

/-! ## The stream -/

theorem readFrame_nil : readFrame 4 [] = .error .eof :=
  (readFrame_eq_eof_iff (by decide)).mpr (.inl rfl)

theorem loadData_of_eof {src : Bytes} (hkey : readFrame 4 src = .error .eof) (db : Store Bytes) :
    loadData src db = (db, none) := by
  rw [loadData]
  split <;> simp_all

theorem loadData_of_readFrame {src src' src'' key value : Bytes}
    (hkey : readFrame 4 src = .ok (key, src')) (hvalue : readFrame 4 src' = .ok (value, src''))
    (db : Store Bytes) : loadData src db = loadData src'' (db.insert key value) := by
  rw [loadData]
  split
  · simp_all
  · simp_all
  · rename_i key' src₁ hkey'
    obtain ⟨rfl, rfl⟩ := Prod.mk.inj (Except.ok.inj (hkey.symm.trans hkey'))
    split
    · simp_all
    · rename_i value' src₂ hvalue'
      obtain ⟨rfl, rfl⟩ := Prod.mk.inj (Except.ok.inj (hvalue.symm.trans hvalue'))
      rfl

/-- The length of each key and of each value fits its length field. -/
def Fits (pairs : List (Key × Bytes)) : Prop :=
  ∀ e ∈ pairs, e.1.length < 2 ^ 32 ∧ e.2.length < 2 ^ 32

section

variable {pairs : List (Key × Bytes)}

theorem readFrame_of_length_lt {bs : Bytes} (h : bs.length < 2 ^ 32) (rest : Bytes) :
    readFrame 4 (frame 4 bs ++ rest) = .ok (bs, rest) := readFrame_frame h rest

theorem persistPairs_cons (e : Key × Bytes) (pairs : List (Key × Bytes)) (rest : Bytes) :
    persistPairs (e :: pairs) ++ rest
      = frame 4 e.1 ++ (frame 4 e.2 ++ (persistPairs pairs ++ rest)) := by
  rw [persistPairs, List.flatMap_cons, ← persistPairs]
  simp only [List.append_assoc]

theorem loadData_persistPairs_append (h : Fits pairs) (rest : Bytes) (db : Store Bytes) :
    loadData (persistPairs pairs ++ rest) db
      = loadData rest (commit db (pairs.map fun e ↦ .set e.1 e.2)) := by
  induction pairs generalizing db with
  | nil => rfl
  | cons e pairs ih =>
    obtain ⟨hk, hv⟩ := h e List.mem_cons_self
    rw [persistPairs_cons,
      loadData_of_readFrame (readFrame_of_length_lt hk _) (readFrame_of_length_lt hv _),
      ih fun e he ↦ h e (List.mem_cons_of_mem _ he)]
    rfl

theorem loadData_persistPairs (h : Fits pairs) (db : Store Bytes) :
    loadData (persistPairs pairs) db = (commit db (pairs.map fun e ↦ .set e.1 e.2), none) := by
  have happ := loadData_persistPairs_append h [] db
  rwa [List.append_nil, loadData_of_eof readFrame_nil] at happ

end

/-! ## What is accepted -/

/-- The input is a concatenation of complete records, those of `pairs`. -/
def Records (pairs : List (Key × Bytes)) (src : Bytes) : Prop :=
  Fits pairs ∧ src = persistPairs pairs

/-- After some complete records the input has the length of a key that is not empty, and stops. -/
def CutAfterLength (src : Bytes) : Prop :=
  ∃ pairs lb, Fits pairs ∧ lb.length = 4 ∧ BigEndian.value lb ≠ 0 ∧ src = persistPairs pairs ++ lb

section

variable {pairs pairs' : List (Key × Bytes)} {src rest rest' : Bytes} {db : Store Bytes}

/-- An input that is accepted is read record by record up to an end. -/
theorem exists_pairs_of_loadData (h : (loadData src db).2 = none) :
    ∃ pairs rest, Fits pairs ∧ src = persistPairs pairs ++ rest ∧
      readFrame 4 rest = .error .eof := by
  fun_induction loadData src db with
  | case1 src db hkey => exact ⟨[], src, fun e he ↦ absurd he List.not_mem_nil, rfl, hkey⟩
  | case2 src db hkey => simp at h
  | case3 src db key src' hkey e hvalue => simp at h
  | case4 src db key src' hkey value src'' hvalue _ _ ih =>
    obtain ⟨pairs, rest, hfits, rfl, hrest⟩ := ih h
    obtain ⟨rfl, hv⟩ := append_of_readFrame hvalue
    obtain ⟨rfl, hk⟩ := append_of_readFrame hkey
    have hw : 256 ^ 4 = 2 ^ 32 := by norm_num
    rw [hw] at hk hv
    refine ⟨(key, value) :: pairs, rest, ?_, ?_, hrest⟩
    · intro e he
      rcases List.mem_cons.mp he with rfl | he
      · exact ⟨hk, hv⟩
      · exact hfits e he
    · exact (persistPairs_cons (key, value) pairs rest).symm

/-- The records of an input, and what is left after them, are determined by the input. -/
theorem persistPairs_append_inj (h : Fits pairs) (h' : Fits pairs')
    (hrest : readFrame 4 rest = .error .eof) (hrest' : readFrame 4 rest' = .error .eof)
    (heq : persistPairs pairs ++ rest = persistPairs pairs' ++ rest') :
    pairs = pairs' ∧ rest = rest' := by
  induction pairs generalizing pairs' with
  | nil =>
    cases pairs' with
    | nil => exact ⟨rfl, heq⟩
    | cons e' pairs' =>
      have hread := readFrame_of_length_lt (h' e' List.mem_cons_self).1
        (frame 4 e'.2 ++ (persistPairs pairs' ++ rest'))
      rw [← persistPairs_cons, ← heq] at hread
      exact absurd (hread.symm.trans hrest) (by simp)
  | cons e pairs ih =>
    obtain ⟨hk, hv⟩ := h e List.mem_cons_self
    have hkey := readFrame_of_length_lt hk (frame 4 e.2 ++ (persistPairs pairs ++ rest))
    rw [← persistPairs_cons, heq] at hkey
    cases pairs' with
    | nil => exact absurd (hkey.symm.trans hrest') (by simp)
    | cons e' pairs' =>
      obtain ⟨hk', hv'⟩ := h' e' List.mem_cons_self
      rw [persistPairs_cons, readFrame_of_length_lt hk', Except.ok.injEq, Prod.mk.injEq] at hkey
      have hvalue := readFrame_of_length_lt hv (persistPairs pairs ++ rest)
      rw [← hkey.2, readFrame_of_length_lt hv', Except.ok.injEq, Prod.mk.injEq] at hvalue
      obtain ⟨rfl, rfl⟩ := ih (fun e he ↦ h e (List.mem_cons_of_mem _ he))
        (fun e he ↦ h' e (List.mem_cons_of_mem _ he)) hvalue.2.symm
      exact ⟨by rw [Prod.ext hkey.1.symm hvalue.1.symm], rfl⟩

theorem not_records_of_cutAfterLength (h : CutAfterLength src) : ¬∃ pairs, Records pairs src := by
  obtain ⟨pairs, lb, hfits, hlen, hvalue, rfl⟩ := h
  rintro ⟨pairs', hfits', heq⟩
  rw [← List.append_nil (persistPairs pairs')] at heq
  obtain ⟨-, rfl⟩ := persistPairs_append_inj hfits hfits'
    ((readFrame_eq_eof_iff (by decide)).mpr (.inr ⟨hlen, hvalue⟩)) readFrame_nil heq
  simp at hlen

/-- **When a damaged snapshot is told from a complete one.** Loading succeeds exactly on
concatenations of complete records, and then has written their pairs in order, unless the input
stops right after the length of a key. -/
theorem loadData_accepts_records_iff (src : Bytes) (db : Store Bytes) :
    (((loadData src db).2 = none ↔ ∃ pairs, Records pairs src) ∧
        ∀ pairs, Records pairs src →
          loadData src db = (commit db (pairs.map fun e ↦ .set e.1 e.2), none)) ↔
      ¬CutAfterLength src := by
  have hwritten : ∀ pairs, Records pairs src →
      loadData src db = (commit db (pairs.map fun e ↦ .set e.1 e.2), none) := by
    rintro pairs ⟨hfits, rfl⟩
    exact loadData_persistPairs hfits db
  constructor
  · rintro ⟨hiff, -⟩ hcut
    refine not_records_of_cutAfterLength hcut (hiff.mp ?_)
    obtain ⟨pairs, lb, hfits, hlen, hvalue, rfl⟩ := hcut
    rw [loadData_persistPairs_append hfits,
      loadData_of_eof ((readFrame_eq_eof_iff (by decide)).mpr (.inr ⟨hlen, hvalue⟩))]
  · intro hcut
    refine ⟨⟨fun h ↦ ?_, fun ⟨pairs, h⟩ ↦ by rw [hwritten pairs h]⟩, hwritten⟩
    obtain ⟨pairs, rest, hfits, rfl, hrest⟩ := exists_pairs_of_loadData h
    rcases (readFrame_eq_eof_iff (by decide)).mp hrest with rfl | ⟨hlen, hvalue⟩
    · exact ⟨pairs, hfits, List.append_nil _⟩
    · exact absurd ⟨pairs, rest, hfits, hlen, hvalue, rfl⟩ hcut

end

/-- The snapshot of two pairs. -/
def twoPairs : Bytes := persistPairs [([1], [2]), ([3], [4])]

/-- Its first fourteen bytes stop after the length of the second key. They are accepted, with the
first pair alone. -/
theorem loadData_accepts_twoPairs_cut :
    (twoPairs.take 14).length < twoPairs.length ∧
      loadData (twoPairs.take 14) ∅ = (commit ∅ [.set [1] [2]], none) ∧
      ¬∃ pairs, Records pairs (twoPairs.take 14) := by
  have htake : twoPairs.take 14 = persistPairs [([1], [2])] ++ [0, 0, 0, 1] := by decide
  have hfits : Fits [([1], [2])] := by
    intro e he
    rw [List.mem_singleton.mp he]
    decide
  have heof : readFrame 4 [0, 0, 0, 1] = .error .eof := by decide
  refine ⟨by decide, ?_, ?_⟩
  · rw [htake, loadData_persistPairs_append hfits, loadData_of_eof heof]
    rfl
  · exact not_records_of_cutAfterLength ⟨_, _, hfits, rfl, by decide, htake⟩

/-! ## The deleted ranges -/

/-- The keys the program writes, whatever queue name and id follow. -/
def IsProgramKey (k : Key) : Prop :=
  lit "task#fifo#" <+: k ∨ lit "task#sched#" <+: k ∨ lit "queue#config#" <+: k ∨
    lit "queue#seq#" <+: k

instance (k : Key) : Decidable (IsProgramKey k) :=
  inferInstanceAs (Decidable (_ <+: _ ∨ _ <+: _ ∨ _ <+: _ ∨ _ <+: _))

theorem Slot.isProgramKey : (s : Slot) → IsProgramKey s.key
  | .fifo _ _ => .inl ((List.prefix_append _ _).trans (List.prefix_append _ _))
  | .sched _ _ => .inr (.inl ((List.prefix_append _ _).trans (List.prefix_append _ _)))
  | .config _ => .inr (.inr (.inl (List.prefix_append _ _)))
  | .counter _ => .inr (.inr (.inr (List.prefix_append _ _)))

theorem Encodes.isProgramKey {db : DB} {m : Maps} (h : Encodes db m) {k : Key} (hk : k ∈ db) :
    IsProgramKey k := by
  by_contra hc
  have hnone := h.only k fun s hs ↦ hc (hs ▸ s.isProgramKey)
  rw [Std.ExtTreeMap.mem_iff_isSome_getElem?, hnone] at hk
  simp at hk

/-- No key of the program survives `DeleteAll`. -/
theorem getElem?_pebbleDeleteAll {V : Type*} (db : Store V) {k : Key} (hk : IsProgramKey k) :
    (pebbleDeleteAll db)[k]? = none := by
  -- the comparisons are decided within the literal heads
  have hin : ((compare (lit "task# ") k).isLE && (compare k (lit "task#z")).isLT) = true ∨
      ((compare (lit "queue# ") k).isLE && (compare k (lit "queue#z")).isLT) = true := by
    rcases hk with ⟨x, rfl⟩ | ⟨x, rfl⟩ | ⟨x, rfl⟩ | ⟨x, rfl⟩
    · exact .inl rfl
    · exact .inl rfl
    · exact .inr rfl
    · exact .inr rfl
  rw [pebbleDeleteAll, getElem?_deleteRange, getElem?_deleteRange]
  rcases hin with hin | hin
  · rw [if_pos hin, ite_self]
  · rw [if_pos hin]

/-! ## The round trip -/

theorem scanner_foldl_write (s : Source) (batches : List (List (Write Bytes))) :
    (batches.foldl Source.write s).scanner = s.scanner := by
  induction batches generalizing s with
  | nil => rfl
  | cons batch batches ih => exact ih (s.write batch)

/-- **A snapshot restores what it was taken of.** Whatever is written to the source between the
snapshot and its persisting, restoring the bytes onto any store of the program succeeds and leaves
exactly the content the source had. -/
theorem restore_persist {X Y : Store Bytes}
    (hX : ∀ (k : Key) (v : Bytes), X[k]? = some v → k.length < 2 ^ 32 ∧ v.length < 2 ^ 32)
    (hY : ∀ k : Key, k ∈ Y → IsProgramKey k) (batches : List (List (Write Bytes))) :
    ∃ src : Bytes, (batches.foldl Source.write (Source.snapshot ⟨X, none⟩)).persist = some src ∧
      restore src Y = (X, none) := by
  refine ⟨persistPairs X.toList, ?_, ?_⟩
  · rw [Source.persist, scanner_foldl_write]
    rfl
  · rw [restore, loadData_persistPairs fun e he ↦ hX e.1 e.2 (mem_toList.mp he)]
    congr 1
    refine Std.ExtTreeMap.ext_getElem? fun k ↦ ?_
    rw [getElem?_commit_toList]
    have hnone : (pebbleDeleteAll Y)[k]? = none := by
      by_cases hk : k ∈ Y
      · exact getElem?_pebbleDeleteAll Y (hY k hk)
      · rw [pebbleDeleteAll, getElem?_deleteRange, getElem?_deleteRange,
          Std.ExtTreeMap.getElem?_eq_none hk, ite_self, ite_self]
    rw [hnone, Option.or_none]

/-- A store with one record, which is deleted after the snapshot, restored over an empty config. -/
theorem restore_persist_pair : ∃ src : Bytes,
    ([[Write.delete (getSeqKey [])]].foldl Source.write (Source.snapshot
      ⟨(∅ : Store Bytes).insert (getSeqKey []) [0, 0, 0, 0, 0, 0, 0, 1], none⟩)).persist
        = some src ∧
      restore src ((∅ : Store Bytes).insert (getConfigKey []) [])
        = ((∅ : Store Bytes).insert (getSeqKey []) [0, 0, 0, 0, 0, 0, 0, 1], none) := by
  refine restore_persist ?_ ?_ _
  · intro k v h
    rw [getElem?_insert] at h
    split at h
    · rename_i hk
      subst hk
      rw [← Option.some.inj h]
      decide
    · simp at h
  · intro k hk
    rw [Std.ExtTreeMap.mem_insert] at hk
    obtain rfl : getConfigKey [] = k := by simpa using hk
    exact Slot.isProgramKey (.config [])

/-- **The bytes and the messages agree.** On marshalled messages, persisting and restoring do what
`restorePairs` does on the messages. -/
theorem restore_persist_marshal (marshal : Value → Bytes) {pairs : List (Key × Value)}
    (h : ∀ e ∈ pairs, e.1.length < 2 ^ 32 ∧ (marshal e.2).length < 2 ^ 32) (db : DB) :
    restore (persistPairs (pairs.map fun e ↦ (e.1, marshal e.2))) (db.map fun _ v ↦ marshal v)
      = ((restorePairs pairs db).map fun _ v ↦ marshal v, none) := by
  have hlen : ∀ e ∈ pairs.map fun e ↦ (e.1, marshal e.2),
      e.1.length < 2 ^ 32 ∧ e.2.length < 2 ^ 32 := by
    intro e he
    obtain ⟨e', he', rfl⟩ := List.mem_map.mp he
    exact h e' he'
  have hdelete : pebbleDeleteAll (db.map fun _ v ↦ marshal v)
      = (deletePairs db).map fun _ v ↦ marshal v := by
    refine Std.ExtTreeMap.ext_getElem? fun k ↦ ?_
    rw [pebbleDeleteAll, deletePairs, Std.ExtTreeMap.getElem?_map]
    simp only [getElem?_deleteRange, Std.ExtTreeMap.getElem?_map]
    split
    · rfl
    · split <;> rfl
  have hcommit : ∀ (pairs : List (Key × Value)) (db : DB),
      commit (db.map fun _ v ↦ marshal v) (pairs.map fun e ↦ .set e.1 (marshal e.2))
        = (commit db (pairs.map fun e ↦ .set e.1 e.2)).map fun _ v ↦ marshal v := by
    intro pairs
    induction pairs with
    | nil => exact fun db ↦ rfl
    | cons e pairs ih =>
      intro db
      have hone : (db.map fun _ v ↦ marshal v).insert e.1 (marshal e.2)
          = (db.insert e.1 e.2).map fun _ v ↦ marshal v := by
        refine Std.ExtTreeMap.ext_getElem? fun k ↦ ?_
        rw [getElem?_insert, Std.ExtTreeMap.getElem?_map, Std.ExtTreeMap.getElem?_map,
          getElem?_insert]
        split <;> rfl
      exact (congrArg (commit · _) hone).trans (ih _)
  rw [restore, loadData_persistPairs hlen, hdelete, List.map_map]
  exact congrArg (·, none) (hcommit pairs (deletePairs db))

end Z4
