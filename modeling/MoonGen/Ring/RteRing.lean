import MoonGen.Lib.BoundedFifo

namespace MoonGen

open List

universe u
variable {α : Type u}

/-- `RTE_RING_SZ_MASK`, the largest table size that DPDK accepts. -/
def rteRingSzMask : Nat := 0x0fffffff

def powerOf2 (x : Nat) : Bool := (x - 1) &&& x == 0

/-- A DPDK ring seen from one producer and one consumer that take turns: a
queue of `count - 1` slots, since one entry of the table always stays empty. -/
structure RteRing (α : Type u) extends BoundedFifo α where
  sized : slots ≤ rteRingSzMask
  deriving DecidableEq

/-- Only the checks on `count` can fail here; the memory zone is taken to be
available. -/
def rteRingCreate (count : Nat) : Option (RteRing α) :=
  if valid : powerOf2 count ∧ count ≤ rteRingSzMask then
    some { BoundedFifo.empty (count - 1) with
      sized := (Nat.sub_le count 1).trans valid.2 }
  else none

def RteRing.enqueue (r : RteRing α) (obj : List α) : RteRing α :=
  { r.push obj with sized := r.sized }

def RteRing.dequeue (r : RteRing α) (n : Nat) : RteRing α :=
  { r.pop n with sized := r.sized }

/-- Stores the whole table or nothing, and returns the number stored. -/
def rteRingSpEnqueueBulk (r : RteRing α) (obj : List α) : Nat × RteRing α :=
  if obj.length ≤ r.free then (obj.length, r.enqueue obj) else (0, r)

/-- Stores as many of the first `n` entries of the table `obj` as fit. The
result is `none` when that reads past the end of the table. -/
def rteRingSpEnqueueBurst (r : RteRing α) (obj : List α) (n : Nat) : Option (Nat × RteRing α) :=
  if min n r.free ≤ obj.length then
    some (min n r.free, r.enqueue (obj.take (min n r.free)))
  else none

def enobufs : Int := 105

def enoent : Int := 2

/-- Returns zero on success and a negative value when the ring is full. -/
def rteRingSpEnqueue (r : RteRing α) (obj : α) : Int × RteRing α :=
  match rteRingSpEnqueueBulk r [obj] with
  | (0, r) => (-enobufs, r)
  | (_ + 1, r) => (0, r)

def rteRingScDequeueBulk (r : RteRing α) (n : Nat) : List α × RteRing α :=
  if n ≤ r.count then (r.items.take n, r.dequeue n) else ([], r)

def rteRingScDequeueBurst (r : RteRing α) (n : Nat) : List α × RteRing α :=
  (r.items.take n, r.dequeue n)

/-- The return code, the object written to the caller, and the ring. -/
def rteRingScDequeue (r : RteRing α) : Int × Option α × RteRing α :=
  match rteRingScDequeueBulk r 1 with
  | ([], r) => (-enoent, none, r)
  | (obj :: _, r) => (0, some obj, r)

@[simp] theorem RteRing.dequeue_items (r : RteRing α) (n : Nat) : (r.dequeue n).items = r.items.drop n := rfl
section
variable (r : RteRing α)

theorem RteRing.enqueue_items {obj : List α} (fit : obj.length ≤ r.free) : (r.enqueue obj).items = r.items ++ obj :=
  r.push_items_of_fit fit

theorem RteRing.enqueue_one_items (obj : α) (room : 0 < r.free) : (r.enqueue [obj]).items = r.items ++ [obj] :=
  r.enqueue_items room

theorem RteRing.enqueue_one_free (obj : α) (room : 0 < r.free) : (r.enqueue [obj]).free + 1 = r.free := by
  have slots : (r.enqueue [obj]).slots = r.slots := rfl
  simp only [BoundedFifo.free, r.enqueue_one_items obj room, slots, length_append, length_singleton] at room ⊢
  omega

theorem RteRing.enqueue_nil : r.enqueue [] = r := by
  simp only [RteRing.enqueue, BoundedFifo.push, take_nil, append_nil]

theorem RteRing.dequeue_zero : r.dequeue 0 = r := by
  simp only [RteRing.dequeue, BoundedFifo.pop, drop_zero]

theorem RteRing.dequeue_min_count (n : Nat) : r.dequeue (min n r.count) = r.dequeue n := by
  rcases Nat.le_total n r.count with few | many
  · rw [Nat.min_eq_left few]
  · have rest : r.items.drop r.count = r.items.drop n := by
      rw [drop_of_length_le many]
      exact drop_length
    simp only [RteRing.dequeue, BoundedFifo.pop, Nat.min_eq_right many, rest]

theorem RteRing.free_lt : r.free < 2 ^ 31 := by
  have small : r.free ≤ 0x0fffffff := (Nat.sub_le r.slots r.items.length).trans r.sized
  omega

theorem rteRingSpEnqueueBurst_of_le {obj : List α} {n : Nat} (within : n ≤ obj.length) :
    rteRingSpEnqueueBurst r obj n = some (min n r.free, r.enqueue (obj.take (min n r.free))) := by
  have bound : min n r.free ≤ obj.length := (Nat.min_le_left _ _).trans within
  simp only [rteRingSpEnqueueBurst, bound, if_true]
end

theorem rteRingSpEnqueueBurst_items {r after : RteRing α} {obj : List α} {n added : Nat}
    (run : rteRingSpEnqueueBurst r obj n = some (added, after)) :
    after.items = r.items ++ obj.take added ∧ added ≤ r.free := by
  unfold rteRingSpEnqueueBurst at run
  split at run
  · obtain ⟨rfl, rfl⟩ := Prod.mk.inj (Option.some.inj run)
    have fit : (obj.take (min n r.free)).length ≤ r.free := by rw [length_take]; omega
    exact ⟨r.enqueue_items fit, by omega⟩
  · simp at run

theorem rteRingSpEnqueue_of_free (r : RteRing α) (obj : α) (room : 0 < r.free) :
    rteRingSpEnqueue r obj = (0, r.enqueue [obj]) := by
  have fit : [obj].length ≤ r.free := room
  simp only [rteRingSpEnqueue, rteRingSpEnqueueBulk, fit, if_true]
  rfl

theorem rteRingSpEnqueue_of_full (r : RteRing α) (obj : α) (full : r.free = 0) :
    rteRingSpEnqueue r obj = (-enobufs, r) := by
  have noRoom : ¬[obj].length ≤ r.free := by simp [full]
  simp only [rteRingSpEnqueue, rteRingSpEnqueueBulk, noRoom, if_false]

theorem rteRingScDequeue_of_cons (r : RteRing α) {obj : α} {rest : List α} (items : r.items = obj :: rest) :
    rteRingScDequeue r = (0, some obj, r.dequeue 1) := by
  have positive : 1 ≤ r.count := by simp [BoundedFifo.count, items]
  simp only [rteRingScDequeue, rteRingScDequeueBulk, positive, if_true]
  simp only [items, take_succ_cons]

theorem rteRingScDequeue_of_nil (r : RteRing α) (items : r.items = []) : rteRingScDequeue r = (-enoent, none, r) := by
  have drained : ¬1 ≤ r.count := by simp [BoundedFifo.count, items]
  simp only [rteRingScDequeue, rteRingScDequeueBulk, drained, if_false]

theorem powerOf2_two_pow (j : Nat) : powerOf2 (2 ^ j) := by
  have mod := Nat.and_two_pow_sub_one_eq_mod (2 ^ j) j
  rw [Nat.and_comm, Nat.mod_self] at mod
  simp [powerOf2, mod]

theorem two_pow_valid {j : Nat} (bound : j ≤ 27) : powerOf2 (2 ^ j) ∧ 2 ^ j ≤ rteRingSzMask := by
  refine ⟨powerOf2_two_pow j, ?_⟩
  have top : 2 ^ j ≤ 2 ^ 27 := Nat.pow_le_pow_right (by omega) bound
  have size : rteRingSzMask = 268435455 := rfl
  omega

/-- DPDK accepts every power of two up to `2 ^ 27`; the next one is above its
size mask. -/
theorem rteRingCreate_two_pow {j : Nat} (bound : j ≤ 27) :
    ∃ r : RteRing α, rteRingCreate (2 ^ j) = some r ∧ r.slots = 2 ^ j - 1 ∧ r.items = [] := by
  have valid := two_pow_valid bound
  simp only [rteRingCreate, valid, and_self, dite_true]
  exact ⟨_, rfl, rfl, rfl⟩

end MoonGen
