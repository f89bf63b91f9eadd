import MoonGen.Ring.BsRing

namespace MoonGen

theorem toInt_sub_toInt32 (rem : Int32) (n : UInt32) :
    (rem - n.toInt32).toInt = (rem.toInt - n.toNat).bmod (2 ^ 32) := by
  rw [Int32.toInt_sub, toInt_toInt32, Int.sub_bmod_bmod]

/-- The byte budget left behind the first `k` mbufs of a batch, as the signed
32-bit number that the loops of `bsring_enqueue_burst` compare. -/
def BsRing.budget (bsr : BsRing) (obj : List Mbuf) (k : Nat) : Int :=
  ((bsr.capacity.toNat : Int) - bsr.bytesUsed.toNat - bytes (obj.take k)).bmod (2 ^ 32)

/-- The first `k` mbufs fit: each finds budget left, and none overdraws it. -/
def BsRing.Fits (bsr : BsRing) (obj : List Mbuf) (k : Nat) : Prop :=
  (∀ j < k, 0 < bsr.budget obj j) ∧ 0 ≤ bsr.budget obj k

structure BsRing.LongestFit (bsr : BsRing) (obj : List Mbuf) (k : Nat) : Prop where
  within : k ≤ obj.length
  fits : bsr.Fits obj k
  stop : k = obj.length ∨ ¬bsr.Fits obj (k + 1)

theorem budget_eq_toInt (bsr : BsRing) (obj : List Mbuf) (k : Nat) :
    bsr.budget obj k = (bsr.capacity - bsr.bytesUsed - totalSize (obj.take k)).toInt32.toInt := by
  rw [toInt_toInt32, UInt32.toNat_sub, UInt32.toNat_sub, totalSize_toNat, BsRing.budget]
  have capacity := bsr.capacity.toNat_lt
  have used := bsr.bytesUsed.toNat_lt
  simp only [Int.bmod]
  split <;> split <;> omega

theorem fitLoop_spec (obj : List Mbuf) (rem : Int32) (start : Nat) :
    ∃ c ≤ obj.length, ∃ left : Int32, fitLoop obj rem start = (start + c, left) ∧
      left.toInt = (rem.toInt - bytes (obj.take c)).bmod (2 ^ 32) ∧
      (∀ j < c, 0 < (rem.toInt - bytes (obj.take j)).bmod (2 ^ 32)) ∧
      (c = obj.length ∨ left.toInt ≤ 0) := by
  induction obj generalizing rem start with
  | nil => exact ⟨0, le_rfl, rem, rfl, by simp, by simp, .inl rfl⟩
  | cons m obj ih =>
    by_cases positive : 0 < rem
    · obtain ⟨c, within, left, run, value, before, stop⟩ := ih (rem - m.pktLen.toInt32) (start + 1)
      have shift (j : Nat) : ((rem - m.pktLen.toInt32).toInt - bytes (obj.take j) : Int).bmod (2 ^ 32) =
          (rem.toInt - bytes ((m :: obj).take (j + 1))).bmod (2 ^ 32) := by
        rw [toInt_sub_toInt32, Int.bmod_sub_bmod, List.take_succ_cons, bytes_cons]
        congr 1
        omega
      refine ⟨c + 1, by simpa using within, left, ?_, ?_, ?_, ?_⟩
      · simp only [fitLoop, positive, if_true, run]
        congr 1
        omega
      · rw [value, shift]
      · intro j bound
        cases j with
        | zero => simpa [Int32.lt_iff_toInt_lt] using positive
        | succ j => rw [← shift]; exact before j (by omega)
      · simpa using stop
    · have nonpositive : rem.toInt ≤ 0 := by simpa [Int32.lt_iff_toInt_lt] using positive
      exact ⟨0, by simp, rem, by simp [fitLoop, positive], by simp, by simp, .inr nonpositive⟩

/-- `num_to_add` as it stands at the call of `rte_ring_sp_enqueue_burst`. -/
def numToAdd (bsr : BsRing) (obj : List Mbuf) : Nat :=
  let (counted, bytesRemaining) := fitLoop obj (bsr.capacity - bsr.bytesUsed).toInt32 0
  if bytesRemaining < 0 then (counted + (2 ^ 32 - 1)) % 2 ^ 32 else counted

variable {bsr : BsRing} {obj : List Mbuf}

/-- Fitting is inherited by shorter prefixes, so the longest fit is unique. -/
theorem BsRing.Fits.mono {j k : Nat} (fits : bsr.Fits obj k) (le : j ≤ k) : bsr.Fits obj j := by
  refine ⟨fun i bound => fits.1 i (by omega), ?_⟩
  rcases Nat.lt_or_eq_of_le le with less | same
  · exact (fits.1 j less).le
  · subst j; exact fits.2

theorem BsRing.LongestFit.le {j k : Nat} (longest : bsr.LongestFit obj k)
    (inside : j ≤ obj.length) (fits : bsr.Fits obj j) : j ≤ k := by
  by_contra short
  rcases longest.stop with whole | above
  · omega
  · exact above (fits.mono (by omega))

theorem BsRing.LongestFit.unique {j k : Nat} (left : bsr.LongestFit obj j) (right : bsr.LongestFit obj k) : j = k :=
  le_antisymm (right.le left.within left.fits) (left.le right.within right.fits)

/-- The first loop finds the longest fit, unless the budget is negative from
the start: then the decrement wraps around. -/
theorem numToAdd_spec (bsr : BsRing) (word : obj.length < 2 ^ 32) :
    (bsr.budget obj 0 < 0 ∧ numToAdd bsr obj = 2 ^ 32 - 1) ∨ bsr.LongestFit obj (numToAdd bsr obj) := by
  obtain ⟨c, within, left, run, value, before, stop⟩ :=
    fitLoop_spec obj (bsr.capacity - bsr.bytesUsed).toInt32 0
  have atBudget (j : Nat) : ((bsr.capacity - bsr.bytesUsed).toInt32.toInt - bytes (obj.take j)).bmod (2 ^ 32) =
      bsr.budget obj j := by
    have start := budget_eq_toInt bsr obj 0
    simp only [BsRing.budget, List.take_zero, bytes_nil, totalSize, List.foldl_nil, UInt32.sub_zero] at start
    rw [← start, Int.bmod_sub_bmod]
    simp [BsRing.budget]
  rw [atBudget] at value
  simp only [atBudget] at before
  have result : numToAdd bsr obj = if left < 0 then (c + (2 ^ 32 - 1)) % 2 ^ 32 else c := by
    simp only [numToAdd, run, Nat.zero_add]
  by_cases overdrawn : left < 0
  · have negative : bsr.budget obj c < 0 := by
      rw [← value]; simpa [Int32.lt_iff_toInt_lt] using overdrawn
    rw [result, if_pos overdrawn]
    cases c with
    | zero => exact .inl ⟨negative, rfl⟩
    | succ c =>
      right
      have wrapped : (c + 1 + (2 ^ 32 - 1)) % 2 ^ 32 = c := by omega
      rw [wrapped]
      refine ⟨by omega, ⟨fun j bound => before j (by omega), (before c (by omega)).le⟩, .inr ?_⟩
      exact fun fits => absurd fits.2 (by omega)
  · have nonnegative : 0 ≤ bsr.budget obj c := by
      rw [← value]; simpa [Int32.lt_iff_toInt_lt] using overdrawn
    rw [result, if_neg overdrawn]
    refine .inr ⟨within, ⟨before, nonnegative⟩, stop.imp_right fun spent fits => ?_⟩
    have positive := fits.1 c (Nat.lt_succ_self c)
    omega

theorem BsRing.LongestFit.numToAdd_eq {k : Nat}
    (fit : bsr.LongestFit obj k) (word : obj.length < 2 ^ 32) : numToAdd bsr obj = k := by
  rcases numToAdd_spec bsr word with ⟨negative, _⟩ | longest
  · have start := (fit.fits.mono (Nat.zero_le k)).2
    omega
  · exact longest.unique fit

/-- The loop variables behind the bulk of a burst whose longest fit is `k`. -/
def burstStart (bsr : BsRing) (obj : List Mbuf) (k : Nat) : Retry :=
  let a := min k bsr.ring.free
  { ring := bsr.ring.enqueue (obj.take a)
    bytesRemaining := (bsr.capacity - bsr.bytesUsed - totalSize (obj.take a)).toInt32
    numAdded := a
    bytesAdded := totalSize (obj.take a)
    freed := (obj.take k).drop a }

theorem bsringEnqueueBurst_eq (bsr : BsRing) (obj : List Mbuf) :
    bsringEnqueueBurst bsr obj = (do
      let (numAdded, ring) ← rteRingSpEnqueueBurst bsr.ring obj (numToAdd bsr obj)
      let freed ← freeRange obj numAdded (numToAdd bsr obj)
      let bytesAdded := totalSize (obj.take numAdded)
      let s : Retry :=
        { ring, bytesRemaining := (bsr.capacity - bsr.bytesUsed - bytesAdded).toInt32, numAdded, bytesAdded, freed }
      let s := if numAdded < obj.length then retryLoop (obj.drop (numToAdd bsr obj)) s else s
      return { bsr := { bsr with ring := s.ring, bytesUsed := bsr.bytesUsed + s.bytesAdded }
               freed := s.freed
               ret := int32 s.numAdded }) := rfl

/-- The whole call, once `num_to_add` is known to stay inside the batch. -/
theorem bsringEnqueueBurst_of_numToAdd {k : Nat} (value : numToAdd bsr obj = k) (within : k ≤ obj.length) :
    bsringEnqueueBurst bsr obj = some (let s := retryLoop (obj.drop k) (burstStart bsr obj k)
      { bsr := { bsr with ring := s.ring, bytesUsed := bsr.bytesUsed + s.bytesAdded }
        freed := s.freed
        ret := int32 s.numAdded }) := by
  have inside : ¬(min k bsr.ring.free < k ∧ obj.length < k) := by omega
  rw [bsringEnqueueBurst_eq, value, rteRingSpEnqueueBurst_of_le _ within]
  simp only [Option.bind_eq_bind, Option.bind_some, freeRange, inside, if_false]
  by_cases more : min k bsr.ring.free < obj.length
  · simp only [more, if_true]
    rfl
  · have past : obj.drop k = [] := List.drop_eq_nil_of_le (by omega)
    simp only [more, if_false, past, retryLoop]
    rfl

/-- A budget that starts negative sends the loops past the end of the batch. -/
theorem burst_out_of_bounds (negative : bsr.budget obj 0 < 0)
    (word : obj.length < 2 ^ 32 - 1) : bsringEnqueueBurst bsr obj = none := by
  have wrapped : numToAdd bsr obj = 2 ^ 32 - 1 := by
    rcases numToAdd_spec bsr (by omega : obj.length < 2 ^ 32) with ⟨_, value⟩ | longest
    · exact value
    · have start := (longest.fits.mono (Nat.zero_le _)).2
      omega
  have small := bsr.ring.free_lt
  rw [bsringEnqueueBurst_eq, wrapped, rteRingSpEnqueueBurst]
  by_cases inside : min (2 ^ 32 - 1) bsr.ring.free ≤ obj.length
  · have past : min (2 ^ 32 - 1) bsr.ring.free < 2 ^ 32 - 1 ∧ obj.length < 2 ^ 32 - 1 := by omega
    simp only [inside, if_true, Option.bind_eq_bind, Option.bind_some, freeRange, past, and_self]
    rfl
  · simp only [inside, if_false]
    rfl

end MoonGen
