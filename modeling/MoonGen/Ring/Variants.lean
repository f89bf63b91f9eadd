import MoonGen.Ring.BsBounds
import MoonGen.Ring.PsLaw

namespace MoonGen

open List

universe u
variable {α : Type u}

theorem int32_inj {a b : Nat} (left : a < 2 ^ 32) (right : b < 2 ^ 32) (same : int32 a = int32 b) : a = b := by
  simp only [int32, toInt_toInt32, UInt32.toNat_ofNat', Int.bmod] at same
  split at same <;> split at same <;> omega

/-- A call accepts its batch when its value counts every mbuf of it and the
ring holds them behind what it held before. -/
def BsEnqueued.Accepts (e : BsEnqueued) (bsr : BsRing) (obj : List Mbuf) : Prop :=
  e.ret = int32 obj.length ∧ e.bsr.ring.items = bsr.ring.items ++ obj

def PsEnqueued.Accepts (e : PsEnqueued α) (psr : PsRing α) (obj : List α) : Prop :=
  e.ret = int32 obj.length ∧ e.psr.ring.items = psr.ring.items ++ obj

theorem bsringEnqueue_accepts_iff (bsr : BsRing) (m : Mbuf) :
    (bsringEnqueue bsr m).Accepts bsr [m] ↔
      (bsr.bytesUsed.toNat + m.pktLen.toNat) % 2 ^ 32 < bsr.capacity.toNat ∧ 0 < bsr.ring.free := by
  have test : bsr.bytesUsed + m.pktLen < bsr.capacity ↔
      (bsr.bytesUsed.toNat + m.pktLen.toNat) % 2 ^ 32 < bsr.capacity.toNat := by
    rw [UInt32.lt_iff_toNat_lt, UInt32.toNat_add]
  have one : int32 1 = 1 := by decide
  have unchanged : ¬bsr.ring.items = bsr.ring.items ++ [m] := by simp
  rw [← test]
  by_cases passed : bsr.bytesUsed + m.pktLen < bsr.capacity
  · rcases Nat.eq_zero_or_pos bsr.ring.free with full | room
    · simp [bsringEnqueue, BsEnqueued.Accepts, passed, rteRingSpEnqueue_of_full _ _ full, full, enobufs, unchanged]
    · simp [bsringEnqueue, BsEnqueued.Accepts, passed, rteRingSpEnqueue_of_free _ _ room, room, one,
        bsr.ring.enqueue_one_items m room]
  · simp [bsringEnqueue, BsEnqueued.Accepts, passed, unchanged]

theorem bsringEnqueueBulk_accepts_iff (bsr : BsRing) (obj : List Mbuf) :
    (bsringEnqueueBulk bsr obj).Accepts bsr obj ↔
      obj = [] ∨ (bsr.bytesUsed.toNat + bytes obj) % 2 ^ 32 ≤ bsr.capacity.toNat ∧ obj.length ≤ bsr.ring.free := by
  rw [← bulk_stores_iff, BsEnqueued.Accepts, and_iff_right_iff_imp, bulk_stores_iff]
  rintro (rfl | ⟨passed, room⟩)
  · unfold bsringEnqueueBulk
    split
    · rfl
    · rfl
  · rw [bsringEnqueueBulk_of_room (not_lt.mpr passed) room]

/-- A burst accepts the whole batch only through its first loop: behind it, an
mbuf is either stored or counted. -/
theorem bsringEnqueueBurst_accepts_iff {bsr : BsRing} {obj : List Mbuf} (word : obj.length < 2 ^ 32) :
    (∃ e, bsringEnqueueBurst bsr obj = some e ∧ e.Accepts bsr obj) ↔
      bsr.Fits obj obj.length ∧ obj.length ≤ bsr.ring.free := by
  constructor
  · rintro ⟨e, run, counted, whole⟩
    have few := bsr.ring.free_lt
    have inside := (numToAdd_le_iff bsr word).mpr ((burst_in_bounds_iff bsr word).mp (by simp [run]))
    have spec := numToAdd_spec bsr word
    generalize picked : numToAdd bsr obj = k at inside spec
    rw [bsringEnqueueBurst_of_numToAdd picked inside] at run
    cases Option.some.inj run
    dsimp only at counted whole
    obtain ⟨_, either⟩ := retryLoop_either (obj.drop k) (burstStart bsr obj k)
    rw [whole, burstStart_items, length_append, length_append, length_take, length_drop] at either
    have bulk : (burstStart bsr obj k).numAdded = min k bsr.ring.free := rfl
    have added := int32_inj (by omega) word counted
    have all : k = obj.length := by omega
    rcases spec with ⟨_, value⟩ | longest
    · omega
    · exact ⟨all ▸ longest.fits, by omega⟩
  · rintro ⟨fits, slots⟩
    have longest : bsr.LongestFit obj obj.length := ⟨le_rfl, fits, .inl rfl⟩
    have room : min obj.length bsr.ring.free = obj.length := by omega
    refine ⟨_, bsringEnqueueBurst_of_numToAdd (longest.numToAdd_eq word) le_rfl, ?_⟩
    rw [drop_length]
    refine ⟨?_, ?_⟩
    · simp only [retryLoop, burstStart, room]
    · simp only [retryLoop, burstStart_items, room, take_length]

theorem PsRing.count_lt (psr : PsRing α) {n : Nat} (room : n ≤ psr.ring.free) :
    (psr.ring.count + n) % 2 ^ 32 = psr.ring.count + n := by
  have balance := psr.ring.count_add_free
  have small : psr.ring.slots ≤ 0x0fffffff := psr.ring.sized
  omega

/-- A call that returns zero and leaves the ring alone accepts only the empty batch. -/
theorem PsEnqueued.accepts_iff_of_refused {e : PsEnqueued α} {psr : PsRing α} {obj : List α} (refused : e.ret = 0)
    (same : e.psr = psr) : e.Accepts psr obj ↔ obj = [] := by
  rw [Accepts, refused, same, self_eq_append_right]
  constructor
  · exact And.right
  · rintro rfl
    exact ⟨show (0 : Int) = int32 0 by decide, rfl⟩

theorem psringEnqueue_accepts_iff (psr : PsRing α) (x : α) :
    (psringEnqueue psr x).Accepts psr [x] ↔ psr.ring.count + 1 ≤ psr.capacity.toNat ∧ 0 < psr.ring.free := by
  have one : int32 1 = 1 := by decide
  have unchanged : ¬psr.ring.items = psr.ring.items ++ [x] := by simp
  rcases Nat.eq_zero_or_pos psr.ring.free with full | room
  · unfold psringEnqueue
    split
    · simp [PsEnqueued.Accepts, rteRingSpEnqueue_of_full _ _ full, full, enobufs, unchanged]
    · simp [PsEnqueued.Accepts, full, unchanged]
  · rw [psringEnqueue, psr.count_lt room]
    split
    · rename_i fits
      simp [PsEnqueued.Accepts, rteRingSpEnqueue_of_free _ _ room, fits, room, one, psr.ring.enqueue_one_items x room]
    · rename_i larger
      simp [PsEnqueued.Accepts, unchanged, larger]

theorem psringEnqueueBulk_accepts_iff (psr : PsRing α) (obj : List α) :
    (psringEnqueueBulk psr obj).Accepts psr obj ↔
      obj = [] ∨ psr.ring.count + obj.length < psr.capacity.toNat ∧ obj.length ≤ psr.ring.free := by
  unfold psringEnqueueBulk rteRingSpEnqueueBulk
  by_cases room : obj.length ≤ psr.ring.free
  · rw [psr.count_lt room]
    split
    · rename_i below
      simp [PsEnqueued.Accepts, room, psr.ring.enqueue_items room, below]
    · rename_i larger
      rw [PsEnqueued.accepts_iff_of_refused rfl rfl]
      simp only [larger, false_and, or_false]
  · have nonempty : obj ≠ [] := by
      rintro rfl
      exact room (Nat.zero_le _)
    split
    · simp [PsEnqueued.Accepts, room, nonempty]
    · simp [PsEnqueued.Accepts, room, nonempty]

theorem psringEnqueueBurst_accepts_iff (psr : PsRing α) (obj : List α) :
    (∃ e, psringEnqueueBurst psr obj = some e ∧ e.Accepts psr obj) ↔
      obj = [] ∨ psr.ring.count + obj.length ≤ psr.capacity.toNat ∧ obj.length ≤ psr.ring.free := by
  by_cases larger : psr.capacity.toNat < psr.ring.count
  · have refused : ¬psr.ring.count + obj.length ≤ psr.capacity.toNat := by omega
    simp only [psringEnqueueBurst, larger, if_true, Option.pure_def, Option.some.injEq, exists_eq_left', refused,
      false_and, or_false]
    exact PsEnqueued.accepts_iff_of_refused rfl rfl
  · -- what is offered to DPDK never exceeds the batch, and is all of it when the sum stays within the capacity
    obtain ⟨k, value, inside, full⟩ : ∃ k, (if psr.capacity.toNat < (psr.ring.count + obj.length) % 2 ^ 32 then
        psr.capacity.toNat - psr.ring.count else obj.length) = k ∧ min k psr.ring.free ≤ obj.length ∧
        (obj.length ≤ min k psr.ring.free ↔
          obj = [] ∨ psr.ring.count + obj.length ≤ psr.capacity.toNat ∧ obj.length ≤ psr.ring.free) := by
      refine ⟨_, rfl, ?_⟩
      have balance := psr.ring.count_add_free
      have small : psr.ring.slots ≤ 0x0fffffff := psr.ring.sized
      rw [← length_eq_zero_iff]
      split <;> omega
    have burst : rteRingSpEnqueueBurst psr.ring obj k =
        some (min k psr.ring.free, psr.ring.enqueue (obj.take (min k psr.ring.free))) := by
      simp only [rteRingSpEnqueueBurst, inside, if_true]
    have fit : (obj.take (min k psr.ring.free)).length ≤ psr.ring.free := by rw [length_take]; omega
    simp only [psringEnqueueBurst, larger, if_false, value, burst, Option.bind_eq_bind, Option.bind_some,
      Option.pure_def, Option.some.injEq, exists_eq_left', PsEnqueued.Accepts, psr.ring.enqueue_items fit,
      append_cancel_left_eq, ← full]
    constructor
    · rintro ⟨_, whole⟩
      have length := congrArg List.length whole
      rw [length_take] at length
      omega
    · intro all
      exact ⟨by rw [Nat.le_antisymm inside all], take_of_length_le all⟩

def BsRing.OneAlike (bsr : BsRing) (m : Mbuf) : Prop :=
  ((bsringEnqueue bsr m).Accepts bsr [m] ↔ (bsringEnqueueBulk bsr [m]).Accepts bsr [m]) ∧
    ((bsringEnqueueBulk bsr [m]).Accepts bsr [m] ↔ ∃ e, bsringEnqueueBurst bsr [m] = some e ∧ e.Accepts bsr [m])

def BsRing.BatchAlike (bsr : BsRing) (obj : List Mbuf) : Prop :=
  (bsringEnqueueBulk bsr obj).Accepts bsr obj ↔ ∃ e, bsringEnqueueBurst bsr obj = some e ∧ e.Accepts bsr obj

def PsRing.OneAlike (psr : PsRing α) (x : α) : Prop :=
  ((psringEnqueue psr x).Accepts psr [x] ↔ (psringEnqueueBulk psr [x]).Accepts psr [x]) ∧
    ((psringEnqueueBulk psr [x]).Accepts psr [x] ↔ ∃ e, psringEnqueueBurst psr [x] = some e ∧ e.Accepts psr [x])

def PsRing.BatchAlike (psr : PsRing α) (obj : List α) : Prop :=
  (psringEnqueueBulk psr obj).Accepts psr obj ↔ ∃ e, psringEnqueueBurst psr obj = some e ∧ e.Accepts psr obj

theorem BsRing.oneAlike_iff (bsr : BsRing) (m : Mbuf) :
    bsr.OneAlike m ↔ bsr.ring.free = 0 ∨
      (bsr.bytesUsed.toNat + m.pktLen.toNat) % 2 ^ 32 ≠ bsr.capacity.toNat ∧
        ((bsr.bytesUsed.toNat + m.pktLen.toNat) % 2 ^ 32 < bsr.capacity.toNat ↔ bsr.Fits [m] 1) := by
  have burst := @bsringEnqueueBurst_accepts_iff bsr [m] (by simp)
  rw [BsRing.OneAlike, bsringEnqueue_accepts_iff, bsringEnqueueBulk_accepts_iff, burst]
  simp only [reduceCtorEq, false_or, bytes_cons, bytes_nil, Nat.add_zero, length_singleton]
  rcases Nat.eq_zero_or_pos bsr.ring.free with full | room
  · simp [full]
  · have slot : 1 ≤ bsr.ring.free := room
    have nonzero : bsr.ring.free ≠ 0 := by omega
    by_cases fits : bsr.Fits [m] 1
    · simp only [room, slot, nonzero, fits, and_true, iff_true, false_or]
      omega
    · simp only [room, slot, nonzero, fits, and_true, iff_false, false_or]
      omega

theorem BsRing.batchAlike_iff (bsr : BsRing) {obj : List Mbuf} (word : obj.length < 2 ^ 32) :
    bsr.BatchAlike obj ↔ bsr.ring.free < obj.length ∨
      (obj = [] ∨ (bsr.bytesUsed.toNat + bytes obj) % 2 ^ 32 ≤ bsr.capacity.toNat ↔ bsr.Fits obj obj.length) := by
  rw [BsRing.BatchAlike, bsringEnqueueBulk_accepts_iff, bsringEnqueueBurst_accepts_iff word]
  by_cases room : obj.length ≤ bsr.ring.free
  · simp only [room, and_true, not_lt.mpr room, false_or]
  · have nonempty : obj ≠ [] := by
      rintro rfl
      exact room (Nat.zero_le _)
    simp only [room, nonempty, and_false, or_false, not_le.mp room, true_or]

theorem PsRing.batchAlike_iff (psr : PsRing α) (obj : List α) :
    psr.BatchAlike obj ↔
      obj = [] ∨ psr.ring.free < obj.length ∨ psr.ring.count + obj.length ≠ psr.capacity.toNat := by
  rw [PsRing.BatchAlike, psringEnqueueBulk_accepts_iff, psringEnqueueBurst_accepts_iff]
  by_cases empty : obj = []
  · simp only [empty, true_or]
  · simp only [empty, false_or]
    omega

theorem PsRing.oneAlike_iff (psr : PsRing α) (x : α) :
    psr.OneAlike x ↔ psr.ring.free = 0 ∨ psr.ring.count + 1 ≠ psr.capacity.toNat := by
  rw [PsRing.OneAlike, psringEnqueue_accepts_iff, psringEnqueueBulk_accepts_iff, psringEnqueueBurst_accepts_iff]
  simp only [reduceCtorEq, false_or, length_singleton]
  omega

/-- When the ways to enqueue agree on what they accept. In a packet ring they
differ on the mbuf that fills it, since only the bulk test is strict; in a
byte ring they differ on the mbuf that fills it, since only the single test is
strict, and where the sum that a bulk or single call tests and the signed
budget that a burst counts down do not describe the same number of bytes. -/
theorem enqueue_variants_iff (bsr : BsRing) (psr : PsRing α) (m : Mbuf) (x : α) {obj : List Mbuf}
    (word : obj.length < 2 ^ 32) (objs : List α) :
    (bsr.OneAlike m ∧ bsr.BatchAlike obj ∧ psr.OneAlike x ∧ psr.BatchAlike objs) ↔
      (bsr.ring.free = 0 ∨ (bsr.bytesUsed.toNat + m.pktLen.toNat) % 2 ^ 32 ≠ bsr.capacity.toNat ∧
        ((bsr.bytesUsed.toNat + m.pktLen.toNat) % 2 ^ 32 < bsr.capacity.toNat ↔ bsr.Fits [m] 1)) ∧
      (bsr.ring.free < obj.length ∨
        (obj = [] ∨ (bsr.bytesUsed.toNat + bytes obj) % 2 ^ 32 ≤ bsr.capacity.toNat ↔ bsr.Fits obj obj.length)) ∧
      (psr.ring.free = 0 ∨ psr.ring.count + 1 ≠ psr.capacity.toNat) ∧
      (objs = [] ∨ psr.ring.free < objs.length ∨ psr.ring.count + objs.length ≠ psr.capacity.toNat) := by
  rw [bsr.oneAlike_iff, bsr.batchAlike_iff word, psr.oneAlike_iff, psr.batchAlike_iff]

theorem enqueue_variants_fresh : ∃ (bsr : BsRing) (psr : PsRing Nat), createBsring 200 = some bsr ∧
    createPsring 5 = some psr ∧ bsr.OneAlike ⟨1, 60⟩ ∧ bsr.BatchAlike [⟨1, 60⟩] ∧ psr.OneAlike 1 ∧
      psr.BatchAlike [1, 2] := by
  have bytesSide : (createBsring 200).map (fun r => (r.bytesUsed, r.capacity)) = some (0, 200) := by decide
  have packetSide : (createPsring 5 : Option (PsRing Nat)).map (fun r => (r.ring.count, r.capacity.toNat)) =
      some (0, 5) := by decide
  obtain ⟨bsr, made, bytesValues⟩ := Option.map_eq_some_iff.mp bytesSide
  obtain ⟨psr, built, packetValues⟩ := Option.map_eq_some_iff.mp packetSide
  obtain ⟨used, limit⟩ := Prod.mk.inj bytesValues
  obtain ⟨count, capacity⟩ := Prod.mk.inj packetValues
  have fits : bsr.Fits [⟨1, 60⟩] 1 := by
    simp only [BsRing.Fits, BsRing.budget, used, limit]
    decide
  refine ⟨bsr, psr, made, built, (enqueue_variants_iff bsr psr ⟨1, 60⟩ 1 (by simp) [1, 2]).mpr ⟨?_, ?_, ?_, ?_⟩⟩
  · rw [used, limit]
    exact .inr ⟨by decide, iff_of_true (by decide) fits⟩
  · rw [used, limit]
    exact .inr (iff_of_true (.inr (by decide)) fits)
  · rw [count, capacity]
    exact .inr (by decide)
  · rw [count, capacity]
    exact .inr (.inr (by decide))

/-- The mbuf that fills the ring: a byte ring refuses it only as a single mbuf,
a packet ring only in bulk. -/
theorem enqueue_variants_last :
    (∃ bsr, BsReach (fun _ _ => True) 100 bsr ∧ ¬(bsringEnqueue bsr ⟨1, 100⟩).Accepts bsr [⟨1, 100⟩] ∧
      (bsringEnqueueBulk bsr [⟨1, 100⟩]).Accepts bsr [⟨1, 100⟩]) ∧
    ∃ psr : PsRing Nat, PsReach 1 psr ⟨[], []⟩ ∧ (psringEnqueue psr 7).Accepts psr [7] ∧
      ¬(psringEnqueueBulk psr [7]).Accepts psr [7] := by
  constructor
  · have seen : (createBsring 100).map (fun r => (r.bytesUsed, r.capacity, r.ring.free)) = some (0, 100, 1) := by
      decide
    obtain ⟨bsr, made, values⟩ := Option.map_eq_some_iff.mp seen
    simp only [Prod.mk.injEq] at values
    obtain ⟨used, limit, free⟩ := values
    refine ⟨bsr, .create made, ?_, ?_⟩
    · rw [bsringEnqueue_accepts_iff, used, limit, free]
      decide
    · rw [bsringEnqueueBulk_accepts_iff, used, limit, free]
      decide
  · have seen : (createPsring 1 : Option (PsRing Nat)).map (fun r => (r.ring.count, r.capacity.toNat, r.ring.free)) =
        some (0, 1, 1) := by decide
    obtain ⟨psr, built, values⟩ := Option.map_eq_some_iff.mp seen
    simp only [Prod.mk.injEq] at values
    obtain ⟨count, capacity, free⟩ := values
    refine ⟨psr, .create built, ?_, ?_⟩
    · rw [psringEnqueue_accepts_iff, count, capacity, free]
      decide
    · rw [psringEnqueueBulk_accepts_iff, count, capacity, free]
      decide

end MoonGen
