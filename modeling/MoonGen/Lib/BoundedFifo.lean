import Mathlib.Data.List.Basic
import Mathlib.Algebra.Order.Group.Nat

universe u

/-- A queue of at most `slots` items, oldest first. The bound is a field, so
an overfull queue cannot be built. -/
structure BoundedFifo (α : Type u) where
  slots : Nat
  items : List α
  bounded : items.length ≤ slots
  deriving DecidableEq

namespace BoundedFifo

variable {α : Type u}

def empty (slots : Nat) : BoundedFifo α := ⟨slots, [], Nat.zero_le _⟩

def count (q : BoundedFifo α) : Nat := q.items.length

def free (q : BoundedFifo α) : Nat := q.slots - q.items.length

/-- Appends the offered items in order until the free slots run out. -/
def push (q : BoundedFifo α) (xs : List α) : BoundedFifo α where
  slots := q.slots
  items := q.items ++ xs.take q.free
  bounded := by
    have old := q.bounded
    simp only [List.length_append, List.length_take, free]
    omega

/-- Removes the `n` oldest items, or all of them when there are fewer. -/
def pop (q : BoundedFifo α) (n : Nat) : BoundedFifo α where
  slots := q.slots
  items := q.items.drop n
  bounded := by
    have old := q.bounded
    simp only [List.length_drop]
    omega

@[simp] theorem push_slots (q : BoundedFifo α) (xs : List α) : (q.push xs).slots = q.slots := rfl

@[simp] theorem pop_items (q : BoundedFifo α) (n : Nat) : (q.pop n).items = q.items.drop n := rfl

theorem push_items (q : BoundedFifo α) (xs : List α) : (q.push xs).items = q.items ++ xs.take q.free := rfl

theorem push_items_of_fit (q : BoundedFifo α) {xs : List α} (fit : xs.length ≤ q.free) :
    (q.push xs).items = q.items ++ xs := by
  rw [push_items, List.take_of_length_le fit]

theorem count_add_free (q : BoundedFifo α) : q.count + q.free = q.slots := by
  have old := q.bounded
  simp only [count, free]
  omega

end BoundedFifo
