import MoonGen.Ring.BsAccounting

namespace MoonGen

open List Option

universe u
variable {α : Type u}

theorem rteRingSpEnqueue_slots (r : RteRing α) (obj : α) : (rteRingSpEnqueue r obj).2.slots = r.slots := by
  rcases Nat.eq_zero_or_pos r.free with full | room
  · rw [rteRingSpEnqueue_of_full r obj full]
  · rw [rteRingSpEnqueue_of_free r obj room]
    rfl

theorem rteRingSpEnqueueBulk_slots (r : RteRing α) (obj : List α) :
    (rteRingSpEnqueueBulk r obj).2.slots = r.slots := by
  unfold rteRingSpEnqueueBulk
  split
  · rfl
  · rfl

theorem rteRingScDequeueBulk_slots (r : RteRing α) (n : Nat) : (rteRingScDequeueBulk r n).2.slots = r.slots := by
  unfold rteRingScDequeueBulk
  split
  · rfl
  · rfl

theorem Retry.attempt_slots (s : Retry) (m : Mbuf) : (s.attempt m).ring.slots = s.ring.slots := by
  have same := rteRingSpEnqueue_slots s.ring m
  unfold Retry.attempt
  split
  · dsimp only
    split
    · exact same
    · exact same
  · rfl

theorem retryLoop_slots (obj : List Mbuf) (s : Retry) : (retryLoop obj s).ring.slots = s.ring.slots := by
  induction obj generalizing s with
  | nil => rfl
  | cons m obj ih =>
    rw [retryLoop]
    split
    · rw [ih, s.attempt_slots]
    · rfl

/-- The two numbers that `create_bsring` fixes for the life of the ring. -/
def BsRing.SameSize (bsr after : BsRing) : Prop :=
  after.capacity = bsr.capacity ∧ after.ring.slots = bsr.ring.slots

theorem bsringEnqueueBulk_sameSize (bsr : BsRing) (obj : List Mbuf) :
    bsr.SameSize (bsringEnqueueBulk bsr obj).bsr := by
  unfold bsringEnqueueBulk
  split
  · exact ⟨rfl, rfl⟩
  · exact ⟨rfl, rteRingSpEnqueueBulk_slots bsr.ring obj⟩

variable {bsr : BsRing} {obj : List Mbuf}

theorem bsringEnqueueBurst_sameSize {e : BsEnqueued}
    (run : bsringEnqueueBurst bsr obj = some e) : bsr.SameSize e.bsr := by
  rw [bsringEnqueueBurst_eq] at run
  obtain ⟨⟨numAdded, ring⟩, burst, run⟩ := bind_eq_some_iff.mp run
  obtain ⟨freed, _, run⟩ := bind_eq_some_iff.mp run
  have slots : ring.slots = bsr.ring.slots := by
    unfold rteRingSpEnqueueBurst at burst
    split at burst
    · obtain ⟨_, rfl⟩ := Prod.mk.inj (Option.some.inj burst)
      rfl
    · simp at burst
  cases Option.some.inj run
  refine ⟨rfl, ?_⟩
  dsimp only
  split
  · rw [retryLoop_slots]
    exact slots
  · exact slots

theorem bsringEnqueue_sameSize (bsr : BsRing) (obj : Mbuf) : bsr.SameSize (bsringEnqueue bsr obj).bsr := by
  have same := rteRingSpEnqueue_slots bsr.ring obj
  unfold bsringEnqueue
  split
  · dsimp only
    split
    · exact ⟨rfl, same⟩
    · exact ⟨rfl, same⟩
  · exact ⟨rfl, rfl⟩

theorem bsringDequeueBulk_sameSize (bsr : BsRing) (n : Nat) : bsr.SameSize (bsringDequeueBulk bsr n).2 :=
  ⟨rfl, rteRingScDequeueBulk_slots bsr.ring n⟩

theorem bsringDequeue_sameSize (bsr : BsRing) : bsr.SameSize (bsringDequeue bsr).2 := by
  cases items : bsr.ring.items with
  | nil =>
    simp only [bsringDequeue, rteRingScDequeue_of_nil _ items]
    exact ⟨rfl, rfl⟩
  | cons m rest =>
    simp only [bsringDequeue, rteRingScDequeue_of_cons _ items]
    exact ⟨rfl, rfl⟩

theorem BsRing.call_sameSize {after : BsRing} {c : BsCall} (run : bsr.call c = some after) : bsr.SameSize after := by
  cases c with
  | enqueueBulk obj => exact Option.some.inj run ▸ bsringEnqueueBulk_sameSize bsr obj
  | enqueueBurst obj =>
    obtain ⟨e, burst, rfl⟩ := map_eq_some_iff.mp run
    exact bsringEnqueueBurst_sameSize burst
  | enqueue obj => exact Option.some.inj run ▸ bsringEnqueue_sameSize bsr obj
  | dequeueBulk n => exact Option.some.inj run ▸ bsringDequeueBulk_sameSize bsr n
  | dequeueBurst n => exact Option.some.inj run ▸ ⟨rfl, rfl⟩
  | dequeue => exact Option.some.inj run ▸ bsringDequeue_sameSize bsr

variable {capacity : UInt32}

/-- Whatever calls a program makes, the ring keeps a slot for every 60 bytes. -/
theorem BsReach.size {guard : BsRing → BsCall → Prop} (reach : BsReach guard capacity bsr) :
    bsr.capacity = capacity ∧ capacity.toNat / 60 ≤ bsr.ring.slots := by
  induction reach with
  | create made =>
    obtain ⟨fresh, run, kept, limit, _⟩ := createBsring_spec capacity
    cases Option.some.inj (made.symm.trans run)
    exact ⟨limit, limit ▸ kept.slots⟩
  | call previous _ run ih =>
    obtain ⟨limit, slots⟩ := BsRing.call_sameSize run
    exact ⟨limit.trans ih.1, by rw [slots]; exact ih.2⟩

theorem BsReach.slots_suffice {guard : BsRing → BsCall → Prop}
    (reach : BsReach guard capacity bsr) (counted : bsr.bytesUsed.toNat = bytes bsr.ring.items)
    (long : ∀ m ∈ bsr.ring.items, 60 ≤ m.pktLen.toNat) (frames : ∀ m ∈ obj, 60 ≤ m.pktLen.toNat)
    (fit : bsr.bytesUsed.toNat + bytes obj ≤ capacity.toNat) : obj.length ≤ bsr.ring.free := by
  obtain ⟨limit, slots⟩ := reach.size
  have kept : bsr.Kept := ⟨⟨counted, by rw [← counted, limit]; omega⟩, long, by rw [limit]; exact slots⟩
  exact kept.slots_suffice frames (by rw [limit]; exact fit)

/-- In every reachable byte ring whose counter is exact, a batch of frames of
at least 60 bytes whose true sum fits the byte limit finds a slot for each frame.
So a bulk call stores the whole batch, and a single call is not refused by DPDK. -/
theorem bsring_slots_suffice (reach : BsReach (fun _ _ => True) capacity bsr)
    (counted : bsr.bytesUsed.toNat = bytes bsr.ring.items) (long : ∀ m ∈ bsr.ring.items, 60 ≤ m.pktLen.toNat)
    (obj : List Mbuf) (frames : ∀ m ∈ obj, 60 ≤ m.pktLen.toNat)
    (fit : bsr.bytesUsed.toNat + bytes obj ≤ capacity.toNat) :
    obj.length ≤ bsr.ring.free ∧ (rteRingSpEnqueueBulk bsr.ring obj).1 = obj.length ∧
      (bsringEnqueueBulk bsr obj).freed = [] ∧ ∀ m, obj = [m] → (rteRingSpEnqueue bsr.ring m).1 = 0 := by
  have room := reach.slots_suffice counted long frames fit
  have word := capacity.toNat_lt
  have passed : ¬bsr.bytesUsed + totalSize obj > bsr.capacity := by
    rw [gt_iff_lt, UInt32.lt_iff_toNat_lt, UInt32.toNat_add, totalSize_toNat, reach.size.1]
    omega
  refine ⟨room, ?_, ?_, ?_⟩
  · simp only [rteRingSpEnqueueBulk, room, if_true]
  · simp only [bsringEnqueueBulk, passed, if_false, rteRingSpEnqueueBulk, room, if_true, drop_length]
  · rintro m rfl
    rw [rteRingSpEnqueue_of_free _ _ room]

theorem bsring_slots_suffice_two : ∃ bsr, BsReach (fun _ _ => True) 120 bsr ∧ 2 ≤ bsr.ring.free := by
  have start : (createBsring 120).map (fun r => (r.bytesUsed, r.ring.items)) = some (0, []) := by decide
  obtain ⟨fresh, made, values⟩ := map_eq_some_iff.mp start
  obtain ⟨used, items⟩ := Prod.mk.inj values
  have room := bsring_slots_suffice (.create made) (by rw [used, items]; rfl) (by simp [items]) [⟨1, 60⟩, ⟨2, 60⟩]
    (by decide) (by rw [used]; decide)
  exact ⟨fresh, .create made, room.1⟩

/-- Two frames of one byte each are within the byte limit of a ring that has a
single slot, and the bulk call frees them behind its test. -/
theorem bsring_slots_short_frames : ∃ bsr, BsReach (fun _ _ => True) 60 bsr ∧
    bsr.bytesUsed.toNat = bytes bsr.ring.items ∧ (∀ m ∈ bsr.ring.items, 60 ≤ m.pktLen.toNat) ∧
    bsr.bytesUsed.toNat + bytes [⟨1, 1⟩, ⟨2, 1⟩] ≤ bsr.capacity.toNat ∧ bsr.ring.free = 1 ∧
    (bsringEnqueueBulk bsr [⟨1, 1⟩, ⟨2, 1⟩]).freed = [⟨1, 1⟩, ⟨2, 1⟩] := by
  have seen : (createBsring 60).map (fun r => (r.bytesUsed, r.capacity, r.ring.items, r.ring.free,
      (bsringEnqueueBulk r [⟨1, 1⟩, ⟨2, 1⟩]).freed)) = some (0, 60, [], 1, [⟨1, 1⟩, ⟨2, 1⟩]) := by decide
  obtain ⟨fresh, made, values⟩ := map_eq_some_iff.mp seen
  simp only [Prod.mk.injEq] at values
  obtain ⟨used, limit, items, free, freed⟩ := values
  exact ⟨fresh, .create made, by rw [used, items]; rfl, by simp [items], by rw [used, limit]; decide, free, freed⟩

theorem budget_zero_nonneg (within : bsr.bytesUsed.toNat ≤ bsr.capacity.toNat) (obj : List Mbuf) :
    0 ≤ bsr.budget obj 0 ↔ bsr.capacity.toNat - bsr.bytesUsed.toNat < 2 ^ 31 := by
  have word := bsr.capacity.toNat_lt
  have zero : bytes (obj.take 0) = 0 := rfl
  constructor
  · intro nonneg
    have small := lt_of_bmod_nonneg (by omega) nonneg
    omega
  · intro small
    rw [BsRing.budget, Int.bmod_eq_of_le (by omega) (by omega)]
    omega

/-- `num_to_add` stays inside the batch unless the budget starts negative; the
wrapped value only covers a batch of `2 ^ 32 - 1` mbufs. -/
theorem numToAdd_le_iff (bsr : BsRing) (word : obj.length < 2 ^ 32) :
    numToAdd bsr obj ≤ obj.length ↔ 0 ≤ bsr.budget obj 0 ∨ obj.length = 2 ^ 32 - 1 := by
  rcases numToAdd_spec bsr word with ⟨negative, value⟩ | longest
  · rw [value]
    omega
  · have start := (longest.fits.mono (Nat.zero_le _)).2
    have inside := longest.within
    simp only [inside, start, true_or]

theorem burst_in_bounds_iff (bsr : BsRing) (word : obj.length < 2 ^ 32) :
    bsringEnqueueBurst bsr obj ≠ none ↔ 0 ≤ bsr.budget obj 0 ∨ obj.length = 2 ^ 32 - 1 := by
  rw [← numToAdd_le_iff bsr word]
  constructor
  · intro returned
    by_contra beyond
    have outside : ¬(0 ≤ bsr.budget obj 0 ∨ obj.length = 2 ^ 32 - 1) := by rwa [← numToAdd_le_iff bsr word]
    exact returned (burst_out_of_bounds (by omega) (by omega))
  · intro inside
    rw [bsringEnqueueBurst_of_numToAdd rfl inside]
    simp

/-- The loop behind the bulk of a burst either stores an mbuf or counts it,
never both. -/
theorem retryLoop_either (obj : List Mbuf) (s : Retry) :
    s.numAdded ≤ (retryLoop obj s).numAdded ∧
      (retryLoop obj s).numAdded + (retryLoop obj s).ring.items.length ≤
        s.numAdded + s.ring.items.length + obj.length := by
  induction obj generalizing s with
  | nil => exact ⟨le_rfl, le_rfl⟩
  | cons m obj ih =>
    rw [retryLoop, length_cons]
    split
    · obtain ⟨more, either⟩ := ih (s.attempt m)
      obtain ⟨-, attempt⟩ | ⟨-, room, attempt⟩ | ⟨-, -, attempt⟩ := s.attempt_cases m
      · rw [attempt] at more either ⊢
        dsimp only at more either
        exact ⟨more, by omega⟩
      · rw [attempt] at more either ⊢
        rw [s.ring.enqueue_one_items m room, length_append, length_singleton] at either
        dsimp only at more either
        exact ⟨more, by omega⟩
      · rw [attempt] at more either ⊢
        dsimp only at more either
        exact ⟨by omega, by omega⟩
    · exact ⟨le_rfl, by omega⟩

/-- It stores the mbufs whose signed length is within the budget it starts with, as
long as there are slots: a stored mbuf does not lower the budget. -/
theorem retryLoop_items (obj : List Mbuf) (s : Retry) :
    (retryLoop obj s).ring.items = s.ring.items ++
      if 60 ≤ s.bytesRemaining then (obj.filter fun m => m.pktLen.toInt32 ≤ s.bytesRemaining).take s.ring.free
      else [] := by
  induction obj generalizing s with
  | nil => simp [retryLoop]
  | cons m obj ih =>
    by_cases enough : 60 ≤ s.bytesRemaining
    · rw [retryLoop, if_pos enough, if_pos enough, ih]
      obtain ⟨larger, attempt⟩ | ⟨fits, room, attempt⟩ | ⟨-, full, attempt⟩ := s.attempt_cases m
      · rw [attempt, filter_cons_of_neg (by simpa using larger)]
        simp only [enough, if_true]
      · obtain ⟨more, free⟩ : ∃ more, s.ring.free = more + 1 := ⟨s.ring.free - 1, by omega⟩
        have after := s.ring.enqueue_one_free m room
        rw [attempt, filter_cons_of_pos (by simpa using fits), free, take_succ_cons]
        have rest : (s.ring.enqueue [m]).free = more := by omega
        simp only [enough, if_true, s.ring.enqueue_one_items m room, rest, append_assoc, singleton_append]
      · rw [attempt]
        simp only [full, take_zero, ite_self]
    · rw [retryLoop, if_neg enough, if_neg enough, append_nil]

theorem bulk_test (bsr : BsRing) (obj : List Mbuf) :
    bsr.bytesUsed + totalSize obj > bsr.capacity ↔
      bsr.capacity.toNat < (bsr.bytesUsed.toNat + bytes obj) % 2 ^ 32 := by
  rw [gt_iff_lt, UInt32.lt_iff_toNat_lt, UInt32.toNat_add, totalSize_toNat]
  omega

theorem bsringEnqueueBulk_of_over (larger : bsr.capacity.toNat < (bsr.bytesUsed.toNat + bytes obj) % 2 ^ 32) :
    bsringEnqueueBulk bsr obj = { bsr, freed := obj, ret := 0 } := by
  rw [bsringEnqueueBulk, if_pos ((bulk_test bsr obj).mpr larger)]

theorem bsringEnqueueBulk_of_full
    (passed : ¬bsr.capacity.toNat < (bsr.bytesUsed.toNat + bytes obj) % 2 ^ 32) (full : ¬obj.length ≤ bsr.ring.free) :
    bsringEnqueueBulk bsr obj = { bsr, freed := obj, ret := 0 } := by
  rw [bsringEnqueueBulk, if_neg (mt (bulk_test bsr obj).mp passed)]
  simp only [rteRingSpEnqueueBulk, full, if_false, take_zero, drop_zero, totalSize, foldl_nil, UInt32.add_zero]
  rfl

theorem bsringEnqueueBulk_of_room
    (passed : ¬bsr.capacity.toNat < (bsr.bytesUsed.toNat + bytes obj) % 2 ^ 32) (room : obj.length ≤ bsr.ring.free) :
    bsringEnqueueBulk bsr obj = {
      bsr := { bsr with ring := bsr.ring.enqueue obj, bytesUsed := bsr.bytesUsed + totalSize obj }
      freed := []
      ret := int32 obj.length } := by
  rw [bsringEnqueueBulk, if_neg (mt (bulk_test bsr obj).mp passed)]
  simp only [rteRingSpEnqueueBulk, room, if_true, take_length, drop_length]

theorem bulk_stores_iff (bsr : BsRing) (obj : List Mbuf) :
    (bsringEnqueueBulk bsr obj).bsr.ring.items = bsr.ring.items ++ obj ↔
      obj = [] ∨ (bsr.bytesUsed.toNat + bytes obj) % 2 ^ 32 ≤ bsr.capacity.toNat ∧ obj.length ≤ bsr.ring.free := by
  by_cases larger : bsr.capacity.toNat < (bsr.bytesUsed.toNat + bytes obj) % 2 ^ 32
  · rw [bsringEnqueueBulk_of_over larger]
    simp only [self_eq_append_right, not_le.mpr larger, false_and, or_false]
  · by_cases room : obj.length ≤ bsr.ring.free
    · rw [bsringEnqueueBulk_of_room larger room]
      simp only [bsr.ring.enqueue_items room, not_lt.mp larger, room, and_self, or_true]
    · rw [bsringEnqueueBulk_of_full larger room]
      simp only [self_eq_append_right, room, and_false, or_false]

theorem bulk_within_iff (bsr : BsRing) (obj : List Mbuf) {left : Nat} :
    bytes (bsringEnqueueBulk bsr obj).bsr.ring.items ≤ bytes bsr.ring.items + left ↔
      bytes obj ≤ left ∨
        bsr.capacity.toNat < (bsr.bytesUsed.toNat + bytes obj) % 2 ^ 32 ∨ bsr.ring.free < obj.length := by
  by_cases larger : bsr.capacity.toNat < (bsr.bytesUsed.toNat + bytes obj) % 2 ^ 32
  · rw [bsringEnqueueBulk_of_over larger]
    simp only [Nat.le_add_right, larger, true_or, or_true]
  · by_cases room : obj.length ≤ bsr.ring.free
    · rw [bsringEnqueueBulk_of_room larger room]
      simp only [bsr.ring.enqueue_items room, bytes_append, larger, not_lt.mpr room, or_false, Nat.add_le_add_iff_left]
    · rw [bsringEnqueueBulk_of_full larger room]
      simp only [Nat.le_add_right, not_le.mp room, or_true]

/-- What a burst stores, once its first loop has picked the first `k` mbufs. -/
theorem burst_bytes {k : Nat} :
    bytes (retryLoop (obj.drop k) (burstStart bsr obj k)).ring.items =
      bytes bsr.ring.items + bytes (obj.take (min k bsr.ring.free)) +
        if k < bsr.ring.free ∧ 60 ≤ bsr.budget obj k then
          bytes (((obj.drop k).filter fun m => int32 m.pktLen.toNat ≤ bsr.budget obj k).take (bsr.ring.free - k))
        else 0 := by
  obtain ⟨enough, fits⟩ := burstStart_tests bsr obj k
  have free : (burstStart bsr obj k).ring.free = bsr.ring.free - (obj.take (min k bsr.ring.free)).length := by
    have slots : (burstStart bsr obj k).ring.slots = bsr.ring.slots := rfl
    simp only [BoundedFifo.free, burstStart_items, slots, length_append]
    omega
  rw [retryLoop_items, burstStart_items, bytes_append, bytes_append]
  congr 1
  by_cases room : k < bsr.ring.free
  · rw [Nat.min_eq_left room.le] at enough fits free
    have tests : (fun m : Mbuf => decide (m.pktLen.toInt32 ≤ (burstStart bsr obj k).bytesRemaining)) =
        fun m => decide (int32 m.pktLen.toNat ≤ bsr.budget obj k) := funext fun m => decide_eq_decide.mpr (fits m)
    by_cases left : 60 ≤ bsr.budget obj k
    · rw [if_pos (enough.mpr left), if_pos ⟨room, left⟩, tests, free, length_take]
      by_cases inside : k ≤ obj.length
      · rw [Nat.min_eq_left inside]
      · rw [drop_eq_nil_of_le (by omega), filter_nil, take_nil, take_nil]
    · rw [if_neg (mt enough.mp left), if_neg (fun both => left both.2), bytes_nil]
  · have refused : ¬(k < bsr.ring.free ∧ 60 ≤ bsr.budget obj k) := fun both => room both.1
    rw [Nat.min_eq_right (not_lt.mp room)] at free
    by_cases inside : bsr.ring.free ≤ obj.length
    · rw [free, length_take, Nat.min_eq_left inside, Nat.sub_self, take_zero, if_neg refused, ite_self, bytes_nil]
    · rw [drop_eq_nil_of_le (by omega), filter_nil, take_nil, if_neg refused, ite_self, bytes_nil]

/-- How many mbufs from the start of a batch fit into some bytes. There are none behind
the one that takes the last byte. -/
def fitCount : Nat → List Mbuf → Nat
  | _, [] => 0
  | left, m :: obj =>
    if 0 < left ∧ m.pktLen.toNat ≤ left then fitCount (left - m.pktLen.toNat) obj + 1 else 0

theorem fitCount_spec (left : Nat) (obj : List Mbuf) :
    fitCount left obj ≤ obj.length ∧ bytes (obj.take (fitCount left obj)) ≤ left ∧
      (∀ j < fitCount left obj, bytes (obj.take j) < left) ∧
      ∀ m ∈ (obj.drop (fitCount left obj)).head?,
        bytes (obj.take (fitCount left obj)) < left → left < bytes (obj.take (fitCount left obj)) + m.pktLen.toNat := by
  induction obj generalizing left with
  | nil => simp [fitCount]
  | cons m obj ih =>
    by_cases fits : 0 < left ∧ m.pktLen.toNat ≤ left
    · obtain ⟨length, sum, before, next⟩ := ih (left - m.pktLen.toNat)
      rw [fitCount, if_pos fits, take_succ_cons, drop_succ_cons, bytes_cons, length_cons]
      refine ⟨by omega, by omega, fun j below => ?_, fun x member less => ?_⟩
      · cases j with
        | zero => exact fits.1
        | succ j =>
          have earlier := before j (by omega)
          rw [take_succ_cons, bytes_cons]
          omega
      · have above := next x member (by omega)
        omega
    · rw [fitCount, if_neg fits]
      refine ⟨Nat.zero_le _, Nat.zero_le _, fun j below => absurd below (Nat.not_lt_zero j), fun x first less => ?_⟩
      obtain rfl : m = x := by simpa using first
      simp only [take_zero, bytes_nil] at less ⊢
      omega

/-- Behind the mbufs that fit, with slots left, the next one is not so long that its length
wraps around the sign, and with 60 bytes or more left the mbufs that are tried again fit
together. A length of `2 ^ 31` or more is negative there and always passes. -/
def BsRing.BurstFits (bsr : BsRing) (obj : List Mbuf) : Prop :=
  let k := fitCount (bsr.capacity.toNat - bsr.bytesUsed.toNat) obj
  let left := bsr.capacity.toNat - bsr.bytesUsed.toNat - bytes (obj.take k)
  k < bsr.ring.free →
    (∀ m ∈ (obj.drop k).head?, 0 < left → m.pktLen.toNat ≤ left + 2 ^ 31) ∧
    (60 ≤ left → bytes (((obj.drop k).filter fun m => m.pktLen.toNat ≤ left ∨ 2 ^ 31 ≤ m.pktLen.toNat).take
      (bsr.ring.free - k)) ≤ left)

theorem int32_le_iff (n : UInt32) {left : Nat} (small : left < 2 ^ 31) :
    int32 n.toNat ≤ left ↔ n.toNat ≤ left ∨ 2 ^ 31 ≤ n.toNat := by
  have word := n.toNat_lt
  rw [int32_toNat, toInt_toInt32, Int.bmod]
  split <;> omega

section
variable {left k : Nat} (rest : bsr.bytesUsed.toNat + left = bsr.capacity.toNat) (small : left < 2 ^ 31)

include rest small

theorem budget_of_le (fits : bytes (obj.take k) ≤ left) :
    bsr.budget obj k = (left - bytes (obj.take k) : Nat) := by
  rw [BsRing.budget, Int.bmod_eq_of_le (by omega) (by omega)]
  omega

/-- What fits passes the first loop. -/
theorem fits_fitCount (obj : List Mbuf) : bsr.Fits obj (fitCount left obj) := by
  obtain ⟨_, sum, before, _⟩ := fitCount_spec left obj
  refine ⟨fun j below => ?_, ?_⟩
  · have less := before j below
    rw [budget_of_le rest small less.le]
    omega
  · rw [budget_of_le rest small sum]
    omega

/-- An mbuf that does not fit any more passes it only as a negative length. -/
theorem budget_next {m : Mbuf} (next : m ∈ (obj.drop k).head?) (sum : bytes (obj.take k) ≤ left)
    (above : left < bytes (obj.take k) + m.pktLen.toNat) :
    bytes (obj.take (k + 1)) = bytes (obj.take k) + m.pktLen.toNat ∧
      (0 ≤ bsr.budget obj (k + 1) ↔ left - bytes (obj.take k) + 2 ^ 31 < m.pktLen.toNat) := by
  have picked : bytes (obj.take (k + 1)) = bytes (obj.take k) + m.pktLen.toNat := by
    rw [head?_drop] at next
    rw [take_add_one, next, bytes_append, toList_some, bytes_cons, bytes_nil, Nat.add_zero]
  have word := m.pktLen.toNat_lt
  refine ⟨picked, ?_⟩
  rw [BsRing.budget, picked, Int.bmod]
  split <;> omega

/-- A burst with less than `2 ^ 31` bytes free stores no more than these. -/
theorem burst_within_iff (word : obj.length < 2 ^ 32) :
    bytes (retryLoop (obj.drop (numToAdd bsr obj)) (burstStart bsr obj (numToAdd bsr obj))).ring.items ≤
      bytes bsr.ring.items + left ↔ bsr.BurstFits obj := by
  obtain ⟨inside, sum, _, next⟩ := fitCount_spec left obj
  have fits := fits_fitCount rest small obj
  have longest : bsr.LongestFit obj (numToAdd bsr obj) := by
    have start := (budget_zero_nonneg (Nat.le.intro rest) obj).mpr (by omega)
    rcases numToAdd_spec bsr word with ⟨negative, _⟩ | longest
    · omega
    · exact longest
  have free : bsr.capacity.toNat - bsr.bytesUsed.toNat = left := by omega
  simp only [BsRing.BurstFits, free]
  generalize fitCount left obj = k at *
  have budget := budget_of_le rest small sum
  have long := longest.le inside fits
  rw [burst_bytes]
  by_cases room : k < bsr.ring.free
  · simp only [room, true_imp_iff]
    by_cases passes : k + 1 ≤ obj.length ∧ bsr.Fits obj (k + 1)
    · -- the next mbuf is stored though it does not fit
      obtain ⟨more, later⟩ := passes
      have first : obj.get ⟨k, more⟩ ∈ (obj.drop k).head? := by simp [head?_drop]
      have positive := later.1 k (Nat.lt_succ_self k)
      have above := next _ first (by omega)
      obtain ⟨picked, wraps⟩ := budget_next rest small first sum above
      have huge := wraps.mp later.2
      have beyond := longest.le more later
      have part := bytes_take_le (obj.take (min (numToAdd bsr obj) bsr.ring.free)) (k + 1)
      rw [take_take, Nat.min_eq_left (by omega), picked] at part
      refine iff_of_false (by omega) fun safe => ?_
      have bound := safe.1 _ first (by omega)
      omega
    · have same : numToAdd bsr obj = k := by
        refine longest.unique ⟨inside, fits, ?_⟩
        by_cases whole : k = obj.length
        · exact .inl whole
        · exact .inr fun later => passes ⟨by omega, later⟩
      have short : ∀ m ∈ (obj.drop k).head?, 0 < left - bytes (obj.take k) →
          m.pktLen.toNat ≤ left - bytes (obj.take k) + 2 ^ 31 := by
        intro m first positive
        by_contra huge
        obtain ⟨_, wraps⟩ := budget_next rest small first sum (next m first (by omega))
        refine passes ⟨?_, fun j below => ?_, wraps.mpr (by omega)⟩
        · have member := length_pos_of_mem (mem_of_mem_head? first)
          rw [length_drop] at member
          omega
        · rcases Nat.lt_succ_iff_lt_or_eq.mp below with earlier | rfl
          · exact fits.1 j earlier
          · omega
      have tests : (fun m : Mbuf => decide (int32 m.pktLen.toNat ≤ bsr.budget obj k)) = fun m =>
          decide (m.pktLen.toNat ≤ left - bytes (obj.take k) ∨ 2 ^ 31 ≤ m.pktLen.toNat) := by
        funext m
        rw [budget, decide_eq_decide]
        exact int32_le_iff m.pktLen (by omega)
      rw [same, Nat.min_eq_left room.le, tests]
      simp only [room, true_and, budget]
      split
      · rename_i enough
        refine ⟨fun bound => ⟨short, fun _ => by omega⟩, fun safe => ?_⟩
        have bound := safe.2 (by omega)
        omega
      · rename_i little
        exact iff_of_true (by omega) ⟨short, fun enough => absurd enough (by omega)⟩
  · have all : min (numToAdd bsr obj) bsr.ring.free = bsr.ring.free := by omega
    have part := bytes_take_le (obj.take k) bsr.ring.free
    rw [take_take, Nat.min_eq_left (not_lt.mp room)] at part
    rw [all, if_neg fun both => room (by omega)]
    exact iff_of_true (by omega) fun less => absurd less room

end

/-- The 32-bit arithmetic of the enqueue functions is safe for a batch exactly when less
than `2 ^ 31` bytes are free (or the batch is as long as a wrapped `num_to_add` and its
mbufs fit as far as there are slots), the mbufs that the burst takes besides those that fit
do so too, and the whole batch fits, or its wrapped sum is above the capacity or a slot is
missing, so that the bulk call refuses it. -/
theorem bsring_arithmetic_iff (within : bsr.bytesUsed.toNat ≤ bsr.capacity.toNat) (word : obj.length < 2 ^ 32) :
    (numToAdd bsr obj ≤ obj.length ∧ bsringEnqueueBurst bsr obj ≠ none ∧
        bytes (bsringEnqueueBulk bsr obj).bsr.ring.items ≤
          bytes bsr.ring.items + (bsr.capacity.toNat - bsr.bytesUsed.toNat) ∧
        ∀ e, bsringEnqueueBurst bsr obj = some e →
          bytes e.bsr.ring.items ≤ bytes bsr.ring.items + (bsr.capacity.toNat - bsr.bytesUsed.toNat)) ↔
      (bytes obj ≤ bsr.capacity.toNat - bsr.bytesUsed.toNat ∨
        bsr.capacity.toNat < (bsr.bytesUsed.toNat + bytes obj) % 2 ^ 32 ∨ bsr.ring.free < obj.length) ∧
      (bsr.capacity.toNat - bsr.bytesUsed.toNat < 2 ^ 31 ∧ bsr.BurstFits obj ∨
        2 ^ 31 ≤ bsr.capacity.toNat - bsr.bytesUsed.toNat ∧ obj.length = 2 ^ 32 - 1 ∧
          bytes (obj.take bsr.ring.free) ≤ bsr.capacity.toNat - bsr.bytesUsed.toNat) := by
  rw [burst_in_bounds_iff bsr word, ← numToAdd_le_iff bsr word, bulk_within_iff, ← and_assoc, and_self, and_left_comm]
  refine and_congr_right fun _ => ?_
  by_cases inside : numToAdd bsr obj ≤ obj.length
  · rw [bsringEnqueueBurst_of_numToAdd rfl inside]
    simp only [inside, true_and, Option.some.injEq, forall_eq']
    by_cases small : bsr.capacity.toNat - bsr.bytesUsed.toNat < 2 ^ 31
    · rw [burst_within_iff (Nat.add_sub_cancel' within) small word]
      simp only [small, true_and, not_le.mpr small, false_and, or_false]
    · have wrapped : obj.length = 2 ^ 32 - 1 := by
        have start := (numToAdd_le_iff bsr word).mp inside
        rw [budget_zero_nonneg within] at start
        omega
      have picked : numToAdd bsr obj = obj.length := by
        rcases numToAdd_spec bsr word with ⟨_, value⟩ | longest
        · omega
        · have start := (longest.fits.mono (Nat.zero_le _)).2
          rw [budget_zero_nonneg within] at start
          omega
      have few := bsr.ring.free_lt
      rw [picked, burst_bytes, Nat.min_eq_right (by omega), if_neg (by omega)]
      simp only [small, false_and, false_or, not_lt.mp small, wrapped, true_and]
      omega
  · have start := mt (numToAdd_le_iff bsr word).mpr inside
    rw [budget_zero_nonneg within] at start
    refine iff_of_false (fun safe => inside safe.1) ?_
    omega

/-- The third mbuf is stored behind the second one, which is too long. -/
theorem bsring_arithmetic_small : ∃ bsr, createBsring 200 = some bsr ∧ bytes bsr.ring.items = 0 ∧
    ∀ e, bsringEnqueueBurst bsr [⟨1, 100⟩, ⟨2, 150⟩, ⟨3, 60⟩] = some e → bytes e.bsr.ring.items ≤ 200 := by
  have start : (createBsring 200).map (fun r => (r.bytesUsed, r.capacity, r.ring.items, r.ring.free)) =
      some (0, 200, [], 3) := by decide
  obtain ⟨fresh, made, values⟩ := map_eq_some_iff.mp start
  simp only [Prod.mk.injEq] at values
  obtain ⟨used, limit, items, free⟩ := values
  have safe := @bsring_arithmetic_iff fresh [⟨1, 100⟩, ⟨2, 150⟩, ⟨3, 60⟩] (by rw [used, limit]; decide) (by decide)
  simp only [used, limit, items, free, BsRing.BurstFits] at safe
  exact ⟨fresh, made, by rw [items]; rfl, (safe.mpr (by decide)).2.2.2⟩

/-- An empty ring of `2 ^ 31` bytes hands `2 ^ 32 - 1` mbufs of a batch of one
to DPDK, and an empty ring of 200 bytes accepts two mbufs of more than four
gigabytes in bulk. A burst stores 220 bytes there, since the retry loop does not count
what it stores. -/
theorem bsring_arithmetic_wraps :
    (∃ bsr, createBsring 2147483648 = some bsr ∧ bsr.bytesUsed = 0 ∧ numToAdd bsr [⟨1, 60⟩] = 2 ^ 32 - 1 ∧
      bsringEnqueueBurst bsr [⟨1, 60⟩] = none) ∧
    ∃ bsr, createBsring 200 = some bsr ∧ bsr.bytesUsed = 0 ∧
      (bsringEnqueueBulk bsr [⟨1, 4294967196⟩, ⟨2, 200⟩]).bsr.ring.items = [⟨1, 4294967196⟩, ⟨2, 200⟩] ∧
      (bsringEnqueueBurst bsr [⟨1, 100⟩, ⟨2, 150⟩, ⟨3, 60⟩, ⟨4, 60⟩]).map (·.bsr.ring.items) =
        some [⟨1, 100⟩, ⟨3, 60⟩, ⟨4, 60⟩] := by
  constructor
  · have seen : (createBsring 2147483648).map (fun r => (r.bytesUsed, numToAdd r [⟨1, 60⟩],
        bsringEnqueueBurst r [⟨1, 60⟩])) = some (0, 2 ^ 32 - 1, none) := by decide
    obtain ⟨fresh, made, values⟩ := map_eq_some_iff.mp seen
    exact ⟨fresh, made, by simpa only [Prod.mk.injEq] using values⟩
  · have seen : (createBsring 200).map (fun r => (r.bytesUsed,
        (bsringEnqueueBulk r [⟨1, 4294967196⟩, ⟨2, 200⟩]).bsr.ring.items,
        (bsringEnqueueBurst r [⟨1, 100⟩, ⟨2, 150⟩, ⟨3, 60⟩, ⟨4, 60⟩]).map (·.bsr.ring.items))) =
        some (0, [⟨1, 4294967196⟩, ⟨2, 200⟩], some [⟨1, 100⟩, ⟨3, 60⟩, ⟨4, 60⟩]) := by decide
    obtain ⟨fresh, made, values⟩ := map_eq_some_iff.mp seen
    exact ⟨fresh, made, by simpa only [Prod.mk.injEq] using values⟩

end MoonGen
