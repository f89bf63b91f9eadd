import Mathlib.Algebra.Order.Group.Nat
import Mathlib.Data.List.Basic

universe u

/-- An output buffer that is handed on in batches: the entries written since
the last hand-over, and the batches handed on so far. -/
structure BatchBuffer (α : Type u) where
  pending : List α
  batches : List (List α)
  deriving DecidableEq

namespace BatchBuffer

variable {α : Type u}

def empty : BatchBuffer α := ⟨[], []⟩

/-- `buf[idx++] = x` for a buffer of `size` entries; `none` when the index is
outside of it. -/
def write (size : Nat) (b : BatchBuffer α) (x : α) : Option (BatchBuffer α) :=
  if b.pending.length < size then some { b with pending := b.pending ++ [x] } else none

def flush (b : BatchBuffer α) : BatchBuffer α := { pending := [], batches := b.batches ++ [b.pending] }

def flushWhen (b : BatchBuffer α) (now : Bool) : BatchBuffer α := if now then b.flush else b

/-- Everything written so far, in order. -/
def stream (b : BatchBuffer α) : List α := b.batches.flatten ++ b.pending

/-- There is room for one more entry, and no batch was larger than the buffer. -/
structure Tidy (size : Nat) (b : BatchBuffer α) : Prop where
  room : b.pending.length < size
  bounded : ∀ batch ∈ b.batches, batch.length ≤ size

@[simp] theorem stream_empty : (empty : BatchBuffer α).stream = [] := rfl

@[simp] theorem stream_flush (b : BatchBuffer α) : b.flush.stream = b.stream := by
  simp [stream, flush]

@[simp] theorem stream_flushWhen (b : BatchBuffer α) (now : Bool) : (b.flushWhen now).stream = b.stream := by
  cases now <;> simp [flushWhen]

theorem tidy_empty {size : Nat} (positive : 0 < size) : (empty : BatchBuffer α).Tidy size :=
  ⟨positive, by simp [empty]⟩

theorem Tidy.write {size : Nat} {b : BatchBuffer α} (tidy : b.Tidy size) (x : α) :
    b.write size x = some { b with pending := b.pending ++ [x] } := by
  simp only [BatchBuffer.write, tidy.room, if_true]

theorem flush_tidy {size : Nat} {b : BatchBuffer α} (fits : b.pending.length ≤ size)
    (bounded : ∀ batch ∈ b.batches, batch.length ≤ size) (positive : 0 < size) : b.flush.Tidy size := by
  refine ⟨positive, ?_⟩
  intro batch member
  rcases List.mem_append.mp member with old | new
  · exact bounded batch old
  · rw [List.mem_singleton.mp new]
    exact fits

/-- Handing on a full buffer keeps room for the next entry, whatever else
may trigger a hand-over. -/
theorem flushWhen_tidy {size : Nat} {b : BatchBuffer α} {now : Bool} (fits : b.pending.length ≤ size)
    (bounded : ∀ batch ∈ b.batches, batch.length ≤ size) (positive : 0 < size)
    (full : size ≤ b.pending.length → now = true) : (b.flushWhen now).Tidy size := by
  cases now with
  | true => exact flush_tidy fits bounded positive
  | false =>
    refine ⟨?_, bounded⟩
    by_contra larger
    exact absurd (full (by simpa [flushWhen] using larger)) (by simp)

end BatchBuffer
