import MoonGen.Ring.BsRetry
import MoonGen.Ring.RteRing

namespace MoonGen

/-- The byte counter agrees with the contents, and the contents with the limit. -/
def BsRing.Accounted (bsr : BsRing) : Prop :=
  bsr.bytesUsed.toNat = bytes bsr.ring.items ∧ bytes bsr.ring.items ≤ bsr.capacity.toNat

def BsCall.batch : BsCall → List Mbuf
  | .enqueueBulk obj => obj
  | .enqueueBurst obj => obj
  | .enqueue obj => [obj]
  | _ => []

/-- The batches that callers hand over: Ethernet frames, of a total length
that a signed 32-bit number can hold. -/
def BsCall.Admissible (c : BsCall) : Prop :=
  (∀ m ∈ c.batch, 60 ≤ m.pktLen.toNat) ∧ bytes c.batch < 2 ^ 31

/-- What keeps the counter exact. A bulk or single enqueue must not pass its
test through a sum that wrapped around; in a burst, the budget must not be
read as negative, and no frame behind the longest prefix that fits may be
short enough to be tried again with success. -/
def BsCall.Sound (bsr : BsRing) : BsCall → Prop
  | .enqueueBulk obj => bsr.bytesUsed + totalSize obj ≤ bsr.capacity →
      bsr.bytesUsed.toNat + bytes obj ≤ bsr.capacity.toNat
  | .enqueueBurst obj => ∃ k, bsr.LongestFit obj k ∧ ∀ m ∈ obj.drop k, bsr.budget obj k < m.pktLen.toNat
  | .enqueue obj => bsr.bytesUsed + obj.pktLen < bsr.capacity →
      bsr.bytesUsed.toNat + obj.pktLen.toNat < bsr.capacity.toNat
  | _ => True

/-- Rings that a program can reach with calls that meet `guard`. -/
inductive BsReach (guard : BsRing → BsCall → Prop) (capacity : UInt32) : BsRing → Prop
  | create {bsr} : createBsring capacity = some bsr → BsReach guard capacity bsr
  | call {bsr after c} : BsReach guard capacity bsr → guard bsr c → bsr.call c = some after →
      BsReach guard capacity after

/-- The counter is exact only together with two facts about the slots: the
table has one for every 60 bytes, and no stored frame is shorter. -/
structure BsRing.Kept (bsr : BsRing) : Prop where
  accounted : bsr.Accounted
  long : ∀ m ∈ bsr.ring.items, 60 ≤ m.pktLen.toNat
  slots : bsr.capacity.toNat / 60 ≤ bsr.ring.slots

theorem bsringDoubling_spec {countMin : Nat} (small : countMin < 2 ^ 27) :
    ∃ j ≤ 27, bsringDoubling countMin = 2 ^ j ∧ countMin ≤ 2 ^ j - 1 := by
  have limit {j : Nat} (low : j ≤ 27) : 2 ^ j ≤ bsRingSizeLimit :=
    (Nat.pow_le_pow_right (by omega) low).trans (by decide)
  obtain ⟨j, bound, ends⟩ := @exists_doubles
    (fun count => count - 1 < countMin && count ≤ bsRingSizeLimit) 27 (by simp; omega)
  refine ⟨j, bound, ends.doubling_eq (by omega), ?_⟩
  simpa [limit bound] using ends.ended

theorem createBsring_spec (capacity : UInt32) :
    ∃ bsr, createBsring capacity = some bsr ∧ bsr.Kept ∧ bsr.capacity = capacity ∧ bsr.ring.items = [] := by
  have word := capacity.toNat_lt
  obtain ⟨j, bound, value, reached⟩ :=
    @bsringDoubling_spec (capacity.toNat / 60) (by omega)
  have limit : ¬bsRingSizeLimit < 2 ^ j := by
    have top : 2 ^ j ≤ 2 ^ 27 := Nat.pow_le_pow_right (by omega) bound
    have size : bsRingSizeLimit = 268435455 := rfl
    omega
  obtain ⟨ring, made, slots, items⟩ := @rteRingCreate_two_pow Mbuf j bound
  simp only [createBsring, value, limit, if_false, made, Option.map_some]
  refine ⟨_, rfl, ⟨⟨?_, ?_⟩, ?_, by rw [slots]; exact reached⟩, rfl, items⟩
  · simp [items]
  · simp [items]
  · simp [items]

variable {bsr : BsRing} {obj : List Mbuf}

section
variable (kept : bsr.Kept)

include kept

/-- A batch within the byte limit finds a slot for each of its frames. -/
theorem BsRing.Kept.slots_suffice (long : ∀ m ∈ obj, 60 ≤ m.pktLen.toNat)
    (fit : bsr.bytesUsed.toNat + bytes obj ≤ bsr.capacity.toNat) : obj.length ≤ bsr.ring.free := by
  have stored := length_le_bytes kept.long
  have offered := length_le_bytes long
  have exact := kept.accounted.1
  have slots := kept.slots
  simp only [BoundedFifo.free]
  omega

/-- Storing a batch that fits and adding its length keeps everything exact. -/
theorem BsRing.Kept.store (long : ∀ m ∈ obj, 60 ≤ m.pktLen.toNat)
    (fit : bsr.bytesUsed.toNat + bytes obj ≤ bsr.capacity.toNat) :
    BsRing.Kept { bsr with ring := bsr.ring.enqueue obj, bytesUsed := bsr.bytesUsed + totalSize obj } := by
  have items := bsr.ring.enqueue_items (kept.slots_suffice long fit)
  have capacity := bsr.capacity.toNat_lt
  have exact := kept.accounted.1
  refine ⟨⟨?_, ?_⟩, ?_, kept.slots⟩
  · simp only [items, bytes_append, UInt32.toNat_add, totalSize_toNat]
    omega
  · simp only [items, bytes_append]
    omega
  · simp only [items]
    exact List.forall_mem_append.mpr ⟨kept.long, long⟩

/-- Taking out the oldest frames and subtracting their lengths does so too. -/
theorem BsRing.Kept.release (n : Nat) : (bsr.release (bsr.ring.dequeue n) (bsr.ring.items.take n)).Kept := by
  have split := bytes_take_add_drop bsr.ring.items n
  obtain ⟨exact, bound⟩ := kept.accounted
  have capacity := bsr.capacity.toNat_lt
  refine ⟨⟨?_, ?_⟩, ?_, kept.slots⟩
  · simp only [BsRing.release, RteRing.dequeue_items, foldl_sub_pktLen_toNat]
    omega
  · simp only [BsRing.release, RteRing.dequeue_items]
    omega
  · intro m member
    exact kept.long m (List.mem_of_mem_drop member)

theorem BsRing.Kept.enqueueBulk
    (long : ∀ m ∈ obj, 60 ≤ m.pktLen.toNat) (sound : BsCall.Sound bsr (.enqueueBulk obj)) :
    (bsringEnqueueBulk bsr obj).bsr.Kept := by
  unfold bsringEnqueueBulk
  split
  · exact kept
  · rename_i passed
    have fit := sound (UInt32.not_lt.mp passed)
    simp only [rteRingSpEnqueueBulk, kept.slots_suffice long fit, if_true, List.take_length]
    exact kept.store long fit

theorem BsRing.Kept.enqueue {obj : Mbuf} (long : 60 ≤ obj.pktLen.toNat) (sound : BsCall.Sound bsr (.enqueue obj)) :
    (bsringEnqueue bsr obj).bsr.Kept := by
  unfold bsringEnqueue
  split
  · rename_i passed
    have fit := sound passed
    have alone : ∀ m ∈ [obj], 60 ≤ m.pktLen.toNat := by simpa using long
    have within : bsr.bytesUsed.toNat + bytes [obj] ≤ bsr.capacity.toNat := by simpa using fit.le
    rw [rteRingSpEnqueue_of_free _ _ (kept.slots_suffice alone within)]
    have stored := kept.store alone within
    simpa [totalSize] using stored
  · exact kept

/-- While the counter is exact and nothing wraps, the budget is the plain
difference of the limit and the bytes in use. -/
theorem BsRing.Kept.budget_eq (small : bytes obj < 2 ^ 31) (start : 0 ≤ bsr.budget obj 0) (k : Nat) :
    bsr.budget obj k = (bsr.capacity.toNat : Int) - bsr.bytesUsed.toNat - bytes (obj.take k) := by
  obtain ⟨exact, bound⟩ := kept.accounted
  have capacity := bsr.capacity.toNat_lt
  have part := bytes_take_le obj k
  have signed : (bsr.capacity.toNat : Int) - bsr.bytesUsed.toNat < 2 ^ 31 := by
    have whole := lt_of_bmod_nonneg (by omega) start
    simpa using whole
  exact Int.bmod_eq_of_le (by omega) (by omega)

theorem BsRing.Kept.enqueueBurst (long : ∀ m ∈ obj, 60 ≤ m.pktLen.toNat) (small : bytes obj < 2 ^ 31)
    (sound : BsCall.Sound bsr (.enqueueBurst obj)) :
    ∃ after, bsringEnqueueBurst bsr obj = some after ∧ after.bsr.Kept := by
  obtain ⟨k, fit, larger⟩ := sound
  have word : obj.length < 2 ^ 32 := by
    have total := length_le_bytes long
    omega
  have budget := kept.budget_eq small (fit.fits.mono (Nat.zero_le k)).2
  have shortLong : ∀ m ∈ obj.take k, 60 ≤ m.pktLen.toNat := fun m member => long m (List.mem_of_mem_take member)
  have within : bsr.bytesUsed.toNat + bytes (obj.take k) ≤ bsr.capacity.toNat := by
    have left := fit.fits.2
    rw [budget] at left
    omega
  have room : min k bsr.ring.free = k := by
    have slots := kept.slots_suffice shortLong within
    have inside := fit.within
    rw [List.length_take] at slots
    omega
  have tooLong : ∀ m ∈ obj.drop k, ¬m.pktLen.toInt32 ≤ (burstStart bsr obj k).bytesRemaining := by
    intro m member
    have part := bytes_take_add_drop obj k
    have own := pktLen_le_bytes member
    rw [(burstStart_tests bsr obj k).2, room, int32_of_lt (by omega)]
    exact not_le.mpr (larger m member)
  refine ⟨_, bsringEnqueueBurst_of_numToAdd (fit.numToAdd_eq word) fit.within, ?_⟩
  rw [retryLoop_of_over tooLong]
  have stored := kept.store shortLong within
  split <;> simpa only [burstStart, room] using stored

theorem BsRing.Kept.dequeueBulk (n : Nat) : (bsringDequeueBulk bsr n).2.Kept := by
  by_cases enough : n ≤ bsr.ring.count
  · simp only [bsringDequeueBulk, rteRingScDequeueBulk, enough, if_true]
    exact kept.release n
  · simp only [bsringDequeueBulk, rteRingScDequeueBulk, enough, if_false]
    exact kept

theorem BsRing.Kept.dequeue : (bsringDequeue bsr).2.Kept := by
  cases items : bsr.ring.items with
  | nil =>
    simp only [bsringDequeue, rteRingScDequeue_of_nil _ items]
    exact kept
  | cons m rest =>
    have released := kept.release 1
    simp only [bsringDequeue, rteRingScDequeue_of_cons _ items]
    simpa [items] using released

/-- One call under the condition returns, and keeps the counter exact. -/
theorem BsRing.Kept.call {c : BsCall} (fair : c.Admissible)
    (sound : c.Sound bsr) : ∃ after, bsr.call c = some after ∧ after.Kept := by
  obtain ⟨long, small⟩ := fair
  cases c with
  | enqueueBulk obj => exact ⟨_, rfl, kept.enqueueBulk long sound⟩
  | enqueueBurst obj =>
    obtain ⟨after, run, result⟩ : ∃ after, bsringEnqueueBurst bsr obj = some after ∧ after.bsr.Kept :=
      kept.enqueueBurst long small sound
    exact ⟨after.bsr, by simp only [BsRing.call, run, Option.map_some], result⟩
  | enqueue obj => exact ⟨_, rfl, kept.enqueue (long obj (List.mem_singleton_self obj)) sound⟩
  | dequeueBulk n => exact ⟨_, rfl, kept.dequeueBulk n⟩
  | dequeueBurst n => exact ⟨_, rfl, kept.release n⟩
  | dequeue => exact ⟨_, rfl, kept.dequeue⟩
end

theorem BsReach.kept {capacity : UInt32}
    (reach : BsReach (fun bsr c => c.Admissible ∧ c.Sound bsr) capacity bsr) : bsr.Kept := by
  induction reach with
  | create made =>
    obtain ⟨ring, run, kept, _⟩ := createBsring_spec capacity
    cases Option.some.inj (made.symm.trans run)
    exact kept
  | call previous guard run ih =>
    obtain ⟨after, result, kept⟩ := ih.call guard.1 guard.2
    cases Option.some.inj (run.symm.trans result)
    exact kept

/-- In every run whose calls meet the condition, the counter equals the bytes
stored and stays within the limit after each call, and the next such call
returns as well. -/
theorem bsring_accounting {capacity : UInt32}
    (reach : BsReach (fun bsr c => c.Admissible ∧ c.Sound bsr) capacity bsr) :
    bsr.Accounted ∧ ∀ c : BsCall, c.Admissible → c.Sound bsr → ∃ after, bsr.call c = some after := by
  refine ⟨reach.kept.accounted, fun c fair sound => ?_⟩
  obtain ⟨after, run, _⟩ := reach.kept.call fair sound
  exact ⟨after, run⟩

theorem bsring_accounting_after_bulk : ∃ bsr,
    BsReach (fun bsr c => c.Admissible ∧ c.Sound bsr) 200 bsr ∧ bytes bsr.ring.items = 160 ∧ bsr.Accounted := by
  have result : (createBsring 200).map (fun r => (r.bytesUsed, r.capacity,
      bytes (bsringEnqueueBulk r [⟨1, 100⟩, ⟨2, 60⟩]).bsr.ring.items)) = some (0, 200, 160) := by decide
  obtain ⟨fresh, made, values⟩ := Option.map_eq_some_iff.mp result
  simp only [Prod.mk.injEq] at values
  obtain ⟨used, limit, stored⟩ := values
  have sound : BsCall.Sound fresh (.enqueueBulk [⟨1, 100⟩, ⟨2, 60⟩]) := by
    intro _
    rw [used, limit]
    decide
  have reach : BsReach (fun bsr c => c.Admissible ∧ c.Sound bsr) 200
      (bsringEnqueueBulk fresh [⟨1, 100⟩, ⟨2, 60⟩]).bsr :=
    .call (.create made) ⟨⟨by decide, by decide⟩, sound⟩ rfl
  exact ⟨_, reach, stored, (bsring_accounting reach).1⟩

/-- A frame that fits behind one that does not is stored without being
counted. -/
theorem bsring_burst_not_accounted : ∃ bsr, BsReach (fun _ c => c.Admissible) 200 bsr ∧ ¬bsr.Accounted := by
  have result : (createBsring 200).bind (fun r => (r.call (.enqueueBurst [⟨1, 100⟩, ⟨2, 150⟩, ⟨3, 60⟩])).map
      fun bsr => (bsr.bytesUsed, bytes bsr.ring.items)) = some (100, 160) := by decide
  obtain ⟨fresh, made, called⟩ := Option.bind_eq_some_iff.mp result
  obtain ⟨bsr, run, values⟩ := Option.map_eq_some_iff.mp called
  obtain ⟨used, stored⟩ := Prod.mk.inj values
  refine ⟨bsr, .call (.create made) ⟨by decide, by decide⟩ run, ?_⟩
  rintro ⟨exact, _⟩
  rw [used, stored] at exact
  revert exact
  decide

end MoonGen
