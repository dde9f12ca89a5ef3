import Mathlib.Data.List.Basic

/-!
# Buffered channels

A channel holds a bounded buffer of values and can be closed. A send queues a value, blocks while
the buffer is full, and panics once the channel is closed. A receive takes the oldest value, blocks
while there is none, and on a closed channel that is drained yields no value. A channel is closed at
most once.

A send on a closed channel never blocks. In a `select` it is a case that is ready, and it may be
taken although another case is ready too. This is why a sender that also waits for something else is
not safe from the panic, and why `send` has it as an outcome of its own.
-/

namespace Channel

variable {α : Type*}

structure Chan (α : Type*) where
  capacity : ℕ
  buf : List α := []
  closed : Bool := false

/-- What a send comes to. -/
inductive Sent (α : Type*) where
  | queued (c : Chan α)
  | blocked
  | panicked

namespace Chan

def send (c : Chan α) (a : α) : Sent α :=
  if c.closed then .panicked
  else if c.buf.length < c.capacity then .queued { c with buf := c.buf ++ [a] }
  else .blocked

/-- The value received, if there is one, and `none` where the receive blocks. -/
def receive (c : Chan α) : Option (Option α × Chan α) :=
  match c.buf with
  | a :: buf => some (some a, { c with buf })
  | [] => if c.closed then some (none, c) else none

/-- `none` where closing panics. -/
def close (c : Chan α) : Option (Chan α) :=
  if c.closed then none else some { c with closed := true }

variable {c c' : Chan α} {a : α}

theorem send_ne_panicked (h : c.closed = false) : c.send a ≠ .panicked := by
  rw [send, h, if_neg Bool.false_ne_true]
  split <;> simp

theorem closed_of_send (h : c.send a = .queued c') : c'.closed = false := by
  rw [send] at h
  split at h
  · simp at h
  · rename_i hopen
    split at h
    · obtain rfl := Sent.queued.inj h
      simpa using hopen
    · simp at h

theorem closed_of_receive {o : Option α} (h : c.receive = some (o, c')) : c'.closed = c.closed := by
  rw [receive] at h
  split at h
  · obtain ⟨-, rfl⟩ := Prod.mk.inj (Option.some.inj h)
    rfl
  · split at h
    · obtain ⟨-, rfl⟩ := Prod.mk.inj (Option.some.inj h)
      rfl
    · simp at h

end Chan

end Channel
