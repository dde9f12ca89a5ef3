import Z4.Storage.TaskStore

/-!
# The ack buffer

Applying an ack does not delete a task. `taskWriter.Acknowledge` appends it to a buffer in memory,
and the buffer is written out by `DeleteAll` when it has grown past a limit or when a ticker fires.
If the delete fails the buffer is kept and the next flush tries again.

Each function is described by the acks it deletes, `overflow` and `ticked`: either none, and the
buffer has grown, or all of them, and the buffer is empty.
-/

namespace Z4

variable (buffer acks : List Ack) (db : DB) (ok : Bool)

/-- The length past which `Acknowledge` flushes by itself. -/
def ackBufferLimit : ℕ := 2000

/-- `taskWriter.flush`; `ok` is the outcome of `DeleteAll`. -/
def flush : List Ack × DB := if ok then ([], deleteAll buffer db) else (buffer, db)

/-- `taskWriter.Acknowledge`. -/
def acknowledge : List Ack × DB :=
  if ackBufferLimit < (buffer ++ acks).length then flush (buffer ++ acks) db ok
  else (buffer ++ acks, db)

/-- A tick of the loop in `taskWriter.handleAckFlush`. -/
def flushTick : List Ack × DB := if 0 < buffer.length then flush buffer db ok else (buffer, db)

/-- The acks `Acknowledge` deletes. -/
def overflow : List Ack :=
  if ackBufferLimit < (buffer ++ acks).length ∧ ok = true then buffer ++ acks else []

/-- The acks a tick deletes. -/
def ticked : List Ack := if ok then buffer else []

@[simp] theorem deleteAll_nil : deleteAll [] db = db := rfl

theorem snd_acknowledge :
    (acknowledge buffer acks db ok).2 = deleteAll (overflow buffer acks ok) db := by
  rw [acknowledge, overflow]
  by_cases hlen : ackBufferLimit < (buffer ++ acks).length
  · cases ok <;> simp only [hlen, if_true, flush] <;> simp
  · cases ok <;> simp only [hlen, if_false, false_and] <;> simp

theorem snd_flushTick : (flushTick buffer db ok).2 = deleteAll (ticked buffer ok) db := by
  rw [flushTick, ticked]
  cases buffer <;> cases ok <;> simp [flush]

/-- What is deleted and what stays buffered is what was buffered and what arrived. -/
theorem overflow_append_acknowledge :
    overflow buffer acks ok ++ (acknowledge buffer acks db ok).1 = buffer ++ acks := by
  rw [acknowledge, overflow]
  by_cases hlen : ackBufferLimit < (buffer ++ acks).length
  · cases ok <;> simp only [hlen, if_true, flush] <;> simp
  · cases ok <;> simp only [hlen, if_false, false_and] <;> simp

theorem ticked_append_flushTick :
    ticked buffer ok ++ (flushTick buffer db ok).1 = buffer := by
  rw [flushTick, ticked]
  cases buffer <;> cases ok <;> simp [flush]

end Z4
