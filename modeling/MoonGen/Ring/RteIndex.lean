import MoonGen.Lib.Circular
import MoonGen.Ring.RteRing

namespace MoonGen

universe u
variable {α : Type u}

structure RteRingHeadtail where
  head : UInt32
  tail : UInt32
  deriving DecidableEq

/-- `struct rte_ring` with the table of pointers behind it. The indices run
over all of `uint32_t` and are masked at each access. -/
structure RteIndexRing (α : Type u) where
  size : UInt32
  mask : UInt32
  capacity : UInt32
  prod : RteRingHeadtail
  cons : RteRingHeadtail
  table : Nat → Option α

inductive RteRingQueueBehavior where
  | queueFixed
  | queueVariable
  deriving DecidableEq

def rteRingInit (count : UInt32) : Option (RteIndexRing α) :=
  if powerOf2 count.toNat ∧ count.toNat ≤ rteRingSzMask then
    some {
      size := count
      mask := count - 1
      capacity := count - 1
      prod := ⟨0, 0⟩
      cons := ⟨0, 0⟩
      table := fun _ => none }
  else none

/-- How many objects are moved when `n` are asked for and there is room, or
there are entries, for `most`. -/
def RteRingQueueBehavior.moved (behavior : RteRingQueueBehavior) (n most : UInt32) : UInt32 :=
  if n > most then
    match behavior with
    | .queueFixed => 0
    | .queueVariable => most
  else n

/-- `ENQUEUE_PTRS` from the masked head of the producer on, and the two moves of
its indices. -/
def RteIndexRing.enqueuePtrs (r : RteIndexRing α) (obj : List α) (n : UInt32) : RteIndexRing α :=
  let prodNext := r.prod.head + n
  { r with
    prod := ⟨prodNext, prodNext⟩
    table := Circular.put r.size.toNat r.table (r.prod.head &&& r.mask).toNat obj }

/-- `DEQUEUE_PTRS`: what it writes to the caller. -/
def RteIndexRing.dequeuePtrs (r : RteIndexRing α) (n : UInt32) : List (Option α) :=
  Circular.get r.size.toNat r.table (r.cons.head &&& r.mask).toNat n.toNat

def RteIndexRing.moveCons (r : RteIndexRing α) (n : UInt32) : RteIndexRing α :=
  let consNext := r.cons.head + n
  { r with cons := ⟨consNext, consNext⟩ }

/-- `__rte_ring_do_enqueue` for one producer. The result is `none` when it
reads past the end of the objects. -/
def rteRingDoEnqueue (r : RteIndexRing α) (obj : List α) (n : UInt32) (behavior : RteRingQueueBehavior) :
    Option (UInt32 × RteIndexRing α) :=
  let freeEntries := r.capacity + r.cons.tail - r.prod.head
  let n := behavior.moved n freeEntries
  if n = 0 then some (0, r)
  else if obj.length < n.toNat then none
  else some (n, r.enqueuePtrs (obj.take n.toNat) n)

/-- `__rte_ring_do_dequeue` for one consumer. -/
def rteRingDoDequeue (r : RteIndexRing α) (n : UInt32) (behavior : RteRingQueueBehavior) :
    List (Option α) × RteIndexRing α :=
  let entries := r.prod.tail - r.cons.head
  let n := behavior.moved n entries
  if n = 0 then ([], r) else (r.dequeuePtrs n, r.moveCons n)

def rteRingCount (r : RteIndexRing α) : UInt32 :=
  let count := (r.prod.tail - r.cons.tail) &&& r.mask
  if count > r.capacity then r.capacity else count

namespace RteIndexRing

def spEnqueueBulk (r : RteIndexRing α) (obj : List α) (n : UInt32) : Option (UInt32 × RteIndexRing α) :=
  rteRingDoEnqueue r obj n .queueFixed

def spEnqueueBurst (r : RteIndexRing α) (obj : List α) (n : UInt32) : Option (UInt32 × RteIndexRing α) :=
  rteRingDoEnqueue r obj n .queueVariable

def spEnqueue (r : RteIndexRing α) (obj : α) : Option (Int × RteIndexRing α) :=
  (r.spEnqueueBulk [obj] 1).map fun (added, r) => (if added = 0 then -enobufs else 0, r)

def scDequeueBulk (r : RteIndexRing α) (n : UInt32) : List (Option α) × RteIndexRing α :=
  rteRingDoDequeue r n .queueFixed

def scDequeueBurst (r : RteIndexRing α) (n : UInt32) : List (Option α) × RteIndexRing α :=
  rteRingDoDequeue r n .queueVariable

def scDequeue (r : RteIndexRing α) : Int × Option α × RteIndexRing α :=
  match r.scDequeueBulk 1 with
  | ([], r) => (-enoent, none, r)
  | (obj :: _, r) => (0, obj, r)

end RteIndexRing

namespace RteRingQueueBehavior

theorem moved_le (behavior : RteRingQueueBehavior) (n most : UInt32) :
    (behavior.moved n most).toNat ≤ min n.toNat most.toNat := by
  unfold moved
  split
  case isTrue larger =>
    have order : most.toNat < n.toNat := UInt32.lt_iff_toNat_lt.mp larger
    cases behavior with
    | queueFixed => exact Nat.zero_le _
    | queueVariable => exact Nat.le_min.mpr ⟨order.le, le_rfl⟩
  case isFalse fits =>
    have order : n.toNat ≤ most.toNat := UInt32.le_iff_toNat_le.mp (UInt32.not_lt.mp fits)
    exact Nat.le_min.mpr ⟨le_rfl, order⟩

theorem moved_fixed (n most : UInt32) :
    (queueFixed.moved n most).toNat = if n.toNat ≤ most.toNat then n.toNat else 0 := by
  simp only [moved, gt_iff_lt, UInt32.lt_iff_toNat_lt]
  split <;> split <;> first | rfl | omega

theorem moved_variable (n most : UInt32) : (queueVariable.moved n most).toNat = min n.toNat most.toNat := by
  simp only [moved, gt_iff_lt, UInt32.lt_iff_toNat_lt]
  split <;> omega

end RteRingQueueBehavior

/-- The index ring holds a queue: between two calls the heads and tails agree,
and the distance of the indices is the number of items. -/
structure RteIndexRing.Represents (r : RteIndexRing α) (q : RteRing α) : Prop where
  size : ∃ k ≤ 27, r.size.toNat = 2 ^ k
  mask : r.mask.toNat + 1 = r.size.toNat
  capacity : r.capacity = r.mask
  slots : q.slots + 1 = r.size.toNat
  prod : r.prod.tail = r.prod.head
  cons : r.cons.tail = r.cons.head
  count : r.prod.head.toNat = (r.cons.head.toNat + q.items.length) % 2 ^ 32
  holds : Circular.Holds r.size.toNat r.table r.cons.head.toNat q.items

namespace RteIndexRing.Represents

variable {r : RteIndexRing α} {q : RteRing α}
section
variable (rep : r.Represents q)

include rep

theorem length_lt : q.items.length < r.size.toNat := by
  have bounded := q.bounded
  have slots := rep.slots
  omega

theorem size_le : r.size.toNat ≤ 2 ^ 27 := by
  obtain ⟨k, bound, value⟩ := rep.size
  rw [value]
  exact Nat.pow_le_pow_right (by omega) bound

theorem free : (r.capacity + r.cons.tail - r.prod.head).toNat = q.free := by
  have length := rep.length_lt
  have size := rep.size_le
  have mask := rep.mask
  have slots := rep.slots
  have count := rep.count
  have head := r.cons.head.toNat_lt
  rw [rep.capacity, rep.cons, UInt32.toNat_sub, UInt32.toNat_add]
  simp only [BoundedFifo.free]
  omega

theorem entries : (r.prod.tail - r.cons.head).toNat = q.count := by
  have length := rep.length_lt
  have size := rep.size_le
  have count := rep.count
  have head := r.cons.head.toNat_lt
  rw [rep.prod, UInt32.toNat_sub]
  simp only [BoundedFifo.count]
  omega

/-- An index is masked to its remainder by the size. -/
theorem masked (index : UInt32) : (index &&& r.mask).toNat = index.toNat % r.size.toNat := by
  obtain ⟨k, _, value⟩ := rep.size
  have mask : r.mask.toNat = 2 ^ k - 1 := by
    have mask := rep.mask
    omega
  rw [UInt32.toNat_and, mask, Nat.and_two_pow_sub_one_eq_mod, value]

theorem mod_size (index : Nat) : index % 2 ^ 32 % r.size.toNat = index % r.size.toNat := by
  obtain ⟨k, bound, value⟩ := rep.size
  rw [value]
  exact Nat.mod_mod_of_dvd _ (Nat.pow_dvd_pow 2 (by omega))

theorem enqueue {obj : List α} {n : UInt32} (length : obj.length = n.toNat)
    (fit : obj.length ≤ q.free) : (r.enqueuePtrs obj n).Represents (q.enqueue obj) where
  size := rep.size
  mask := rep.mask
  capacity := rep.capacity
  slots := rep.slots
  prod := rfl
  cons := rep.cons
  count := by
    have count := rep.count
    show (r.prod.head + n).toNat = (r.cons.head.toNat + (q.enqueue obj).items.length) % 2 ^ 32
    rw [UInt32.toNat_add, q.enqueue_items fit, List.length_append]
    omega
  holds := by
    have index : (r.prod.head &&& r.mask).toNat = (r.cons.head.toNat + q.items.length) % r.size.toNat := by
      rw [rep.masked, rep.count, rep.mod_size]
    have slots := rep.slots
    have total := q.count_add_free
    rw [q.enqueue_items fit]
    show Circular.Holds _ (Circular.put _ r.table (r.prod.head &&& r.mask).toNat obj) _ _
    rw [index]
    refine rep.holds.put (by omega) ?_
    simp only [BoundedFifo.count] at total
    omega

theorem dequeuePtrs {n : UInt32} (enough : n.toNat ≤ q.count) : r.dequeuePtrs n = (q.items.take n.toNat).map some := by
  have length := rep.length_lt
  unfold RteIndexRing.dequeuePtrs
  rw [rep.masked]
  exact rep.holds.get (by omega) (by omega) enough

theorem dequeue {n : UInt32} (enough : n.toNat ≤ q.count) :
    (r.moveCons n).Represents (q.dequeue n.toNat) where
  size := rep.size
  mask := rep.mask
  capacity := rep.capacity
  slots := rep.slots
  prod := rep.prod
  cons := rfl
  count := by
    have count := rep.count
    simp only [BoundedFifo.count] at enough
    show r.prod.head.toNat = ((r.cons.head + n).toNat + (q.items.drop n.toNat).length) % 2 ^ 32
    rw [UInt32.toNat_add, List.length_drop]
    omega
  holds := by
    have moved := rep.holds.drop n.toNat
    intro i bound
    have place : ((r.cons.head + n).toNat + i) % r.size.toNat = (r.cons.head.toNat + n.toNat + i) % r.size.toNat := by
      rw [UInt32.toNat_add, Nat.add_mod, rep.mod_size, ← Nat.add_mod]
    show r.table (((r.cons.head + n).toNat + i) % r.size.toNat) = _
    rw [place]
    exact moved i bound

theorem doEnqueue (obj : List α) (n : UInt32) (behavior : RteRingQueueBehavior)
    {moved : UInt32} (value : behavior.moved n (r.capacity + r.cons.tail - r.prod.head) = moved)
    (within : moved.toNat ≤ obj.length) :
    ∃ after, rteRingDoEnqueue r obj n behavior = some (moved, after) ∧
      after.Represents (q.enqueue (obj.take moved.toNat)) := by
  have length : (obj.take moved.toNat).length = moved.toNat := List.length_take_of_le within
  have fit : moved.toNat ≤ q.free := by
    rw [← value, ← rep.free]
    exact (behavior.moved_le _ _).trans (Nat.min_le_right _ _)
  simp only [rteRingDoEnqueue, value]
  rcases eq_or_ne moved 0 with rfl | nonzero
  · refine ⟨r, if_pos rfl, ?_⟩
    show r.Represents (q.enqueue [])
    rw [q.enqueue_nil]
    exact rep
  · refine ⟨_, ?_, rep.enqueue length (length.trans_le fit)⟩
    rw [if_neg nonzero, if_neg (Nat.not_lt.mpr within)]

theorem doDequeue (n : UInt32) (behavior : RteRingQueueBehavior) {moved : UInt32}
    (value : behavior.moved n (r.prod.tail - r.cons.head) = moved) :
    (rteRingDoDequeue r n behavior).1 = (q.items.take moved.toNat).map some ∧
      (rteRingDoDequeue r n behavior).2.Represents (q.dequeue moved.toNat) := by
  have enough : moved.toNat ≤ q.count := by
    rw [← value, ← rep.entries]
    exact (behavior.moved_le _ _).trans (Nat.min_le_right _ _)
  simp only [rteRingDoDequeue, value]
  rcases eq_or_ne moved 0 with rfl | nonzero
  · refine ⟨by rw [if_pos rfl]; rfl, ?_⟩
    rw [if_pos rfl]
    show r.Represents (q.dequeue 0)
    rw [q.dequeue_zero]
    exact rep
  · rw [if_neg nonzero]
    exact ⟨rep.dequeuePtrs enough, rep.dequeue enough⟩
end

end RteIndexRing.Represents

end MoonGen
