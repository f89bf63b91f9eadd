import MoonGen.Ring.BsAccounting
import MoonGen.Ring.PsLaw

namespace MoonGen

universe u
variable {α : Type u}

/-- The capacity that `create_psring` stores. -/
def psringCapacity (capacity : UInt32) : UInt32 :=
  if psRingSizeLimit < capacity.toNat then UInt32.ofNat psRingSizeLimit else capacity

/-- The count that `create_psring` passes to `rte_ring_create`. -/
def psringSize (capacity : UInt32) : Nat := psringDoubling (psringCapacity capacity).toNat

/-- The count that `create_bsring` passes to `rte_ring_create`. -/
def bsringSize (capacity : UInt32) : Nat :=
  let count := bsringDoubling (capacity.toNat / 60)
  if bsRingSizeLimit < count then count / 2 else count

/-- What a table size has to be: the power of two at which the doubling loop
ends, one that DPDK accepts, and large enough for `least` objects. -/
structure RingSize (test : Nat → Bool) (count least : Nat) : Prop where
  doubled : ∃ rounds, Doubles test rounds ∧ count = 2 ^ rounds
  limit : count ≤ rteRingSzMask
  enough : least ≤ count - 1
section
variable (capacity : UInt32)

theorem psringCapacity_toNat : (psringCapacity capacity).toNat = min capacity.toNat psRingSizeLimit := by
  unfold psringCapacity
  split
  · rename_i large
    rw [Nat.min_eq_right large.le]
    rfl
  · omega

/-- The loop of `create_psring` always ends, at the latest at `2 ^ 28`. -/
theorem psringSize_spec :
    ∃ rounds ≤ 28, Doubles (fun count => count < (psringCapacity capacity).toNat + 1) rounds ∧
      psringSize capacity = 2 ^ rounds := by
  have stored := psringCapacity_toNat capacity
  have size : psRingSizeLimit = 268435455 := rfl
  obtain ⟨rounds, bound, ends⟩ := @exists_doubles
    (fun count => count < (psringCapacity capacity).toNat + 1) 28 (by simp; omega)
  exact ⟨rounds, bound, ends, ends.doubling_eq (by omega)⟩

theorem psringSize_enough : (psringCapacity capacity).toNat ≤ psringSize capacity - 1 := by
  obtain ⟨rounds, _, ends, value⟩ := psringSize_spec capacity
  have ended := ends.ended
  simp only [decide_eq_false_iff_not] at ended
  omega

/-- The size stays under the limit of DPDK as long as one more doubling is not
needed for the entry of the table that stays empty. -/
theorem psringSize_limit : psringSize capacity ≤ rteRingSzMask ↔ capacity.toNat < 2 ^ 27 := by
  have stored := psringCapacity_toNat capacity
  have size : psRingSizeLimit = 268435455 := rfl
  have mask : rteRingSzMask = 268435455 := rfl
  obtain ⟨rounds, bound, ends, value⟩ := psringSize_spec capacity
  constructor
  · intro limit
    -- a power of two within the mask is at most `2 ^ 27`
    have low : rounds ≤ 27 := by
      by_contra high
      have last : rounds = 28 := by omega
      rw [value, last] at limit
      omega
    have top : 2 ^ rounds ≤ 2 ^ 27 := Nat.pow_le_pow_right (by omega) low
    have enough := psringSize_enough capacity
    omega
  · intro small
    obtain ⟨j, low, count, _⟩ := @psringDoubling_spec (psringCapacity capacity).toNat (by omega)
    rw [psringSize, count]
    exact (two_pow_valid low).2

theorem bsringSize_sized :
    RingSize (fun count => count - 1 < capacity.toNat / 60 && count ≤ bsRingSizeLimit) (bsringSize capacity)
      (capacity.toNat / 60) := by
  have word := capacity.toNat_lt
  obtain ⟨j, low, count, reached⟩ := @bsringDoubling_spec (capacity.toNat / 60) (by omega)
  have valid := (two_pow_valid low).2
  have limit : ¬bsRingSizeLimit < 2 ^ j := by
    have same : bsRingSizeLimit = rteRingSzMask := rfl
    omega
  have value : bsringSize capacity = 2 ^ j := by
    simp only [bsringSize, count, limit, if_false]
  obtain ⟨rounds, bound, ends⟩ := @exists_doubles
    (fun count => count - 1 < capacity.toNat / 60 && count ≤ bsRingSizeLimit) j (by simp; omega)
  have same : 2 ^ rounds = 2 ^ j := by
    rw [← count]
    exact (ends.doubling_eq (by omega)).symm
  refine ⟨⟨rounds, ends, by rw [value, same]⟩, by rw [value]; exact valid, by rw [value]; exact reached⟩

/-- Both rings get a table size that DPDK accepts and that holds what the ring
was asked for, exactly when the packet ring is asked for less than `2 ^ 27`
objects. -/
theorem ring_sizes_iff :
    (RingSize (fun count => count < (psringCapacity capacity).toNat + 1) (psringSize capacity)
        (psringCapacity capacity).toNat ∧
      RingSize (fun count => count - 1 < capacity.toNat / 60 && count ≤ bsRingSizeLimit) (bsringSize capacity)
        (capacity.toNat / 60)) ↔ capacity.toNat < 2 ^ 27 := by
  constructor
  · rintro ⟨packets, _⟩
    exact (psringSize_limit capacity).mp packets.limit
  · intro small
    obtain ⟨rounds, _, ends, value⟩ := psringSize_spec capacity
    exact ⟨⟨⟨rounds, ends, value⟩, (psringSize_limit capacity).mpr small, psringSize_enough capacity⟩,
      bsringSize_sized capacity⟩

end

/-- At `2 ^ 27` objects the count is one above the mask, and no ring is made. -/
theorem psring_size_too_large :
    psringSize 134217728 = 2 ^ 28 ∧ ¬psringSize 134217728 ≤ rteRingSzMask ∧
      (createPsring 134217728 : Option (PsRing Nat)) = none := by
  decide

end MoonGen
