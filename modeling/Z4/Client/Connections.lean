import Z4.Iden.TaskID

/-!
# Connections

The pool of a client and the leader handle of a peer each have one connection at a time, which they
close before they go on with another one. A connection is known by the number of the dial that made
it. `Connections` counts the dials and has the numbers of the closed connections. That the current
one is the only one that is open is a field of it.
-/

namespace Z4.Client

/-- `*grpc.ClientConn`. -/
structure Conn where
  /-- The number of the dial that made it. -/
  id : ℕ
  target : GoString
deriving DecidableEq

/-- The connections that were made one after the other. -/
structure Connections where
  conn : Option Conn
  /-- How many connections were made. -/
  dialled : ℕ
  /-- Those that were closed. -/
  closed : List ℕ
  closed_lt : ∀ i ∈ closed, i < dialled
  /-- The current connection is open, and no other one is. -/
  open_iff : ∀ i, (i < dialled ∧ i ∉ closed) ↔ conn.map Conn.id = some i

namespace Connections

variable {x : Connections} {c : Conn} {addr : GoString}

/-- Nothing was dialled. -/
def new : Connections where
  conn := none
  dialled := 0
  closed := []
  closed_lt := by simp
  open_iff := by simp

/-- The connection was made and not closed. -/
def IsOpen (x : Connections) (c : Conn) : Prop := c.id < x.dialled ∧ c.id ∉ x.closed

instance (x : Connections) (c : Conn) : Decidable (x.IsOpen c) :=
  inferInstanceAs (Decidable (_ ∧ _))

theorem isOpen_of_conn (hc : x.conn = some c) : x.IsOpen c := by
  rw [IsOpen, x.open_iff, hc, Option.map_some]

/-- The closed connections once the current one is closed too. -/
def closing (x : Connections) : List ℕ := (x.conn.map Conn.id).toList ++ x.closed

theorem mem_closing {i : ℕ} : i ∈ x.closing ↔ i < x.dialled := by
  rw [closing, List.mem_append, Option.mem_toList, ← x.open_iff]
  have hlt := x.closed_lt i
  tauto

theorem closed_subset_closing : x.closed ⊆ x.closing := List.subset_append_right _ _

/-- A dial that succeeds: the old connection is closed and the new one takes its place. -/
def adopt (x : Connections) (addr : GoString) : Connections where
  conn := some ⟨x.dialled, addr⟩
  dialled := x.dialled + 1
  closed := x.closing
  closed_lt := fun i hi ↦ Nat.lt_succ_of_lt (mem_closing.mp hi)
  open_iff := by
    intro i
    rw [mem_closing, Option.map_some, Option.some.injEq, Nat.not_lt]
    constructor
    · exact fun h ↦ Nat.le_antisymm h.2 (Nat.le_of_lt_succ h.1)
    · exact fun h ↦ h ▸ ⟨Nat.lt_succ_self _, le_rfl⟩

/-- The connection is closed and set to `nil`. -/
def drop (x : Connections) : Connections where
  conn := none
  dialled := x.dialled
  closed := x.closing
  closed_lt := fun _ hi ↦ mem_closing.mp hi
  open_iff := by
    intro i
    rw [mem_closing]
    simp

theorem closed_of_adopt (hc : x.conn = some c) : c.id ∈ (x.adopt addr).closed :=
  mem_closing.mpr (isOpen_of_conn hc).1

end Connections

end Z4.Client
