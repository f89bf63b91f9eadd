import MoonGen.Lib.Machine
import MoonGen.Ring.RteIndex

namespace MoonGen

universe u
variable {α : Type u}

namespace RteIndexRing.Represents

variable {r : RteIndexRing α} {q : RteRing α}
section
variable (rep : r.Represents q)

include rep

theorem spEnqueueBulk {obj : List α} {n : UInt32} (length : obj.length = n.toNat) :
    ∃ added after, r.spEnqueueBulk obj n = some (added, after) ∧
      added.toNat = (rteRingSpEnqueueBulk q obj).1 ∧ after.Represents (rteRingSpEnqueueBulk q obj).2 := by
  have moved := RteRingQueueBehavior.moved_fixed n (r.capacity + r.cons.tail - r.prod.head)
  rw [rep.free, ← length] at moved
  obtain ⟨after, run, kept⟩ := rep.doEnqueue obj n .queueFixed rfl (by rw [moved]; split <;> omega)
  refine ⟨_, after, run, ?_⟩
  rw [moved] at kept ⊢
  unfold rteRingSpEnqueueBulk
  split
  case isTrue fit =>
    rw [if_pos fit, List.take_length] at kept
    exact ⟨rfl, kept⟩
  case isFalse larger =>
    rw [if_neg larger, List.take_zero, q.enqueue_nil] at kept
    exact ⟨rfl, kept⟩

theorem spEnqueueBurst (obj : List α) (n : UInt32) :
    (∃ added after stored, r.spEnqueueBurst obj n = some (added, after) ∧
      rteRingSpEnqueueBurst q obj n.toNat = some (added.toNat, stored) ∧ after.Represents stored) ∨
    (r.spEnqueueBurst obj n = none ∧ rteRingSpEnqueueBurst q obj n.toNat = none) := by
  have moved := RteRingQueueBehavior.moved_variable n (r.capacity + r.cons.tail - r.prod.head)
  rw [rep.free] at moved
  unfold rteRingSpEnqueueBurst
  rw [← moved]
  split
  case isTrue within =>
    obtain ⟨after, run, kept⟩ := rep.doEnqueue obj n .queueVariable rfl within
    exact .inl ⟨_, after, _, run, rfl, kept⟩
  case isFalse beyond =>
    refine .inr ⟨?_, rfl⟩
    simp only [RteIndexRing.spEnqueueBurst, rteRingDoEnqueue]
    rw [if_neg, if_pos (by omega)]
    intro zero
    rw [zero] at beyond
    exact beyond (Nat.zero_le _)

theorem scDequeueBulk (n : UInt32) :
    (r.scDequeueBulk n).1 = (rteRingScDequeueBulk q n.toNat).1.map some ∧
      (r.scDequeueBulk n).2.Represents (rteRingScDequeueBulk q n.toNat).2 := by
  have moved := RteRingQueueBehavior.moved_fixed n (r.prod.tail - r.cons.head)
  have both := rep.doDequeue n .queueFixed rfl
  rw [moved, rep.entries] at both
  unfold rteRingScDequeueBulk
  split
  case isTrue enough =>
    rw [if_pos enough] at both
    exact both
  case isFalse few =>
    rw [if_neg few, List.take_zero, q.dequeue_zero] at both
    exact both

theorem scDequeueBurst (n : UInt32) :
    (r.scDequeueBurst n).1 = (rteRingScDequeueBurst q n.toNat).1.map some ∧
      (r.scDequeueBurst n).2.Represents (rteRingScDequeueBurst q n.toNat).2 := by
  have moved := RteRingQueueBehavior.moved_variable n (r.prod.tail - r.cons.head)
  have both := rep.doDequeue n .queueVariable rfl
  have taken : q.items.take (min n.toNat q.count) = q.items.take n.toNat := List.take_eq_take_min.symm
  rw [moved, rep.entries, taken, q.dequeue_min_count] at both
  exact both

theorem spEnqueue (obj : α) :
    ∃ after, r.spEnqueue obj = some ((rteRingSpEnqueue q obj).1, after) ∧
      after.Represents (rteRingSpEnqueue q obj).2 := by
  have table : [obj].length = (1 : UInt32).toNat := rfl
  obtain ⟨added, after, run, same, kept⟩ := rep.spEnqueueBulk table
  simp only [RteIndexRing.spEnqueue, run, Option.map_some, rteRingSpEnqueue]
  refine ⟨after, ?_⟩
  generalize rteRingSpEnqueueBulk q [obj] = bulk at same kept ⊢
  obtain ⟨_ | count, stored⟩ := bulk
  · have zero : added = 0 := UInt32.toNat_inj.mp same
    rw [if_pos zero]
    exact ⟨rfl, kept⟩
  · have more : added ≠ 0 := by
      rintro rfl
      exact absurd same (by simp)
    rw [if_neg more]
    exact ⟨rfl, kept⟩

theorem scDequeue :
    r.scDequeue.1 = (rteRingScDequeue q).1 ∧ r.scDequeue.2.1 = (rteRingScDequeue q).2.1 ∧
      r.scDequeue.2.2.Represents (rteRingScDequeue q).2.2 := by
  obtain ⟨same, kept⟩ := rep.scDequeueBulk 1
  unfold RteIndexRing.scDequeue rteRingScDequeue
  have one : (1 : UInt32).toNat = 1 := rfl
  rw [one] at same kept
  generalize r.scDequeueBulk 1 = bulk at same kept ⊢
  obtain ⟨objs, after⟩ := bulk
  generalize rteRingScDequeueBulk q 1 = taken at same kept ⊢
  obtain ⟨_ | ⟨obj, rest⟩, stored⟩ := taken
  · cases same
    exact ⟨rfl, rfl, kept⟩
  · cases same
    exact ⟨rfl, rfl, kept⟩

theorem count_eq : (rteRingCount r).toNat = q.count := by
  have length := rep.length_lt
  have mask := rep.mask
  have entries := rep.entries
  have used : ((r.prod.tail - r.cons.tail) &&& r.mask).toNat = q.count := by
    rw [rep.masked, rep.cons, entries]
    exact Nat.mod_eq_of_lt length
  simp only [rteRingCount]
  rw [if_neg, used]
  rw [gt_iff_lt, UInt32.lt_iff_toNat_lt, used, rep.capacity]
  simp only [BoundedFifo.count]
  omega
end

end RteIndexRing.Represents

/-- The calls of DPDK's ring that the sized rings make. -/
inductive RteCall (α : Type u) where
  | enqueueBulk (obj : List α) (n : UInt32) (length : obj.length = n.toNat)
  | enqueueBurst (obj : List α) (n : UInt32)
  | enqueue (obj : α)
  | dequeueBulk (n : UInt32)
  | dequeueBurst (n : UInt32)
  | dequeue
  | count

inductive RteAnswer (α : Type u) where
  | number (n : Nat)
  | code (code : Int)
  | objects (taken : List (Option α))
  | object (code : Int) (obj : Option α)

def RteIndexRing.call (r : RteIndexRing α) : RteCall α → Option (RteAnswer α × RteIndexRing α)
  | .enqueueBulk obj n _ => (r.spEnqueueBulk obj n).map fun (added, r) => (.number added.toNat, r)
  | .enqueueBurst obj n => (r.spEnqueueBurst obj n).map fun (added, r) => (.number added.toNat, r)
  | .enqueue obj => (r.spEnqueue obj).map fun (code, r) => (.code code, r)
  | .dequeueBulk n => some (.objects (r.scDequeueBulk n).1, (r.scDequeueBulk n).2)
  | .dequeueBurst n => some (.objects (r.scDequeueBurst n).1, (r.scDequeueBurst n).2)
  | .dequeue => some (.object r.scDequeue.1 r.scDequeue.2.1, r.scDequeue.2.2)
  | .count => some (.number (rteRingCount r).toNat, r)

def RteRing.call (q : RteRing α) : RteCall α → Option (RteAnswer α × RteRing α)
  | .enqueueBulk obj _ _ => some (.number (rteRingSpEnqueueBulk q obj).1, (rteRingSpEnqueueBulk q obj).2)
  | .enqueueBurst obj n => (rteRingSpEnqueueBurst q obj n.toNat).map fun (added, q) => (.number added, q)
  | .enqueue obj => some (.code (rteRingSpEnqueue q obj).1, (rteRingSpEnqueue q obj).2)
  | .dequeueBulk n =>
    some (.objects ((rteRingScDequeueBulk q n.toNat).1.map some), (rteRingScDequeueBulk q n.toNat).2)
  | .dequeueBurst n =>
    some (.objects ((rteRingScDequeueBurst q n.toNat).1.map some), (rteRingScDequeueBurst q n.toNat).2)
  | .dequeue => some (.object (rteRingScDequeue q).1 (rteRingScDequeue q).2.1, (rteRingScDequeue q).2.2)
  | .count => some (.number q.count, q)

theorem RteIndexRing.Represents.call {r : RteIndexRing α} {q : RteRing α} (rep : r.Represents q) (c : RteCall α) :
    Option.Rel (fun x y => x.1 = y.1 ∧ x.2.Represents y.2) (r.call c) (q.call c) := by
  cases c with
  | enqueueBulk obj n length =>
    obtain ⟨added, after, run, same, kept⟩ := rep.spEnqueueBulk length
    simp only [RteIndexRing.call, run]
    exact .some ⟨congrArg _ same, kept⟩
  | enqueueBurst obj n =>
    rcases rep.spEnqueueBurst obj n with ⟨added, after, stored, run, queue, kept⟩ | ⟨run, queue⟩
    · simp only [RteIndexRing.call, RteRing.call, run, queue]
      exact .some ⟨rfl, kept⟩
    · simp only [RteIndexRing.call, RteRing.call, run, queue]
      exact .none
  | enqueue obj =>
    obtain ⟨after, run, kept⟩ := rep.spEnqueue obj
    simp only [RteIndexRing.call, run]
    exact .some ⟨rfl, kept⟩
  | dequeueBulk n =>
    obtain ⟨same, kept⟩ := rep.scDequeueBulk n
    exact .some ⟨congrArg _ same, kept⟩
  | dequeueBurst n =>
    obtain ⟨same, kept⟩ := rep.scDequeueBurst n
    exact .some ⟨congrArg _ same, kept⟩
  | dequeue =>
    obtain ⟨code, obj, kept⟩ := rep.scDequeue
    exact .some ⟨congrArg₂ _ code obj, kept⟩
  | count => exact .some ⟨congrArg _ rep.count_eq, rep⟩

theorem rteRingInit_represents {k : Nat} (bound : k ≤ 27) :
    ∃ (r : RteIndexRing α) (q : RteRing α), rteRingInit (UInt32.ofNat (2 ^ k)) = some r ∧
      rteRingCreate (2 ^ k) = some q ∧ r.Represents q := by
  obtain ⟨valid, top⟩ := two_pow_valid bound
  have positive : 0 < 2 ^ k := Nat.two_pow_pos k
  have size : (UInt32.ofNat (2 ^ k)).toNat = 2 ^ k := by
    rw [UInt32.toNat_ofNat', Nat.mod_eq_of_lt (by simp only [rteRingSzMask] at top; omega)]
  have mask : (UInt32.ofNat (2 ^ k) - 1).toNat + 1 = 2 ^ k := by
    have one : (1 : UInt32).toNat = 1 := rfl
    simp only [rteRingSzMask] at top
    rw [UInt32.toNat_sub, size]
    omega
  obtain ⟨q, create, slots, items⟩ := rteRingCreate_two_pow (α := α) bound
  refine ⟨_, q, if_pos (by rw [size]; exact ⟨valid, top⟩), create, ?_⟩
  exact {
    size := ⟨k, bound, size⟩
    mask := mask.trans size.symm
    capacity := rfl
    slots := by rw [slots, size]; omega
    prod := rfl
    cons := rfl
    count := by rw [items]; rfl
    holds := by
      rw [items]
      intro i inside
      exact absurd inside (Nat.not_lt_zero i) }

/-- The queue stands for DPDK's ring: a ring and a queue of the same size give
the same answers in every run of calls, also after the indices have wrapped. -/
theorem rteRing_answers {k : Nat} (bound : k ≤ 27) :
    ∃ (r : RteIndexRing α) (q : RteRing α), rteRingInit (UInt32.ofNat (2 ^ k)) = some r ∧
      rteRingCreate (2 ^ k) = some q ∧
      ∀ calls, Component.answers RteIndexRing.call r calls = Component.answers RteRing.call q calls := by
  obtain ⟨r, q, init, create, rep⟩ := rteRingInit_represents (α := α) bound
  have alike : ∀ (r : RteIndexRing α) (q : RteRing α) c, r.Represents q →
      Option.Rel (fun x y => x.1 = y.1 ∧ x.2.Represents y.2) (r.call c) (q.call c) := by
    intro r q c rep
    exact rep.call c
  exact ⟨r, q, init, create, fun calls => Component.answers_eq alike rep calls⟩

theorem rteRing_answers_eight : 3 ≤ 27 ∧
    ∃ (r : RteIndexRing Nat) (q : RteRing Nat), rteRingInit (UInt32.ofNat (2 ^ 3)) = some r ∧
      rteRingCreate (2 ^ 3) = some q ∧
      ∀ calls, Component.answers RteIndexRing.call r calls = Component.answers RteRing.call q calls :=
  ⟨by decide, rteRing_answers (by decide)⟩

end MoonGen
