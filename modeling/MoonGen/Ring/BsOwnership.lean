import MoonGen.Ring.BsRetry

namespace MoonGen

open List

/-- When the call is over, each mbuf of the batch is stored once and not freed
or freed once and not stored, and the value returned is the number stored. -/
def Owned (before : BsRing) (obj : List Mbuf) (after : BsEnqueued) : Prop :=
  ∃ stored, after.bsr.ring.items = before.ring.items ++ stored ∧
    (∀ m ∈ obj, stored.count m = 1 ∧ after.freed.count m = 0 ∨
      stored.count m = 0 ∧ after.freed.count m = 1) ∧
    after.ret = stored.length

variable {obj : List Mbuf}

/-- The shape that every correct enqueue has: a prefix is stored and counted,
and the rest of the batch is freed. -/
theorem owned_of_split {before : BsRing} {after : BsEnqueued} {k : Nat}
    (distinct : obj.Nodup) (within : k ≤ obj.length)
    (items : after.bsr.ring.items = before.ring.items ++ obj.take k)
    (freed : after.freed = obj.drop k) (ret : after.ret = k) : Owned before obj after := by
  refine ⟨obj.take k, items, ?_, by simp [ret, within]⟩
  intro m member
  have apart := disjoint_take_drop distinct (le_refl k)
  rw [freed]
  rw [← take_append_drop k obj] at member
  rcases mem_append.mp member with stored | dropped
  · left
    exact ⟨count_eq_one_of_mem (distinct.sublist (take_sublist ..)) stored,
      count_eq_zero.mpr fun other => apart stored other⟩
  · right
    exact ⟨count_eq_zero.mpr fun other => apart other dropped,
      count_eq_one_of_mem (distinct.sublist (drop_sublist ..)) dropped⟩

theorem bsringEnqueueBulk_owned (bsr : BsRing) (distinct : obj.Nodup) : Owned bsr obj (bsringEnqueueBulk bsr obj) := by
  unfold bsringEnqueueBulk
  split
  · exact owned_of_split distinct (Nat.zero_le _) (by simp) (by simp) rfl
  · by_cases fit : obj.length ≤ bsr.ring.free
    · have small : obj.length < 2 ^ 31 := fit.trans_lt bsr.ring.free_lt
      simp only [rteRingSpEnqueueBulk, fit, if_true]
      refine owned_of_split distinct le_rfl ?_ rfl ?_
      · simpa using bsr.ring.enqueue_items fit
      · simpa only using int32_of_lt small
    · simp only [rteRingSpEnqueueBulk, fit, if_false]
      exact owned_of_split distinct (Nat.zero_le _) (by simp) rfl rfl

theorem bsringEnqueue_owned (bsr : BsRing) (obj : Mbuf) : Owned bsr [obj] (bsringEnqueue bsr obj) := by
  have refused : Owned bsr [obj] { bsr, freed := [obj], ret := 0 } :=
    owned_of_split (nodup_singleton obj) (Nat.zero_le _) (by simp) rfl rfl
  unfold bsringEnqueue
  split
  · by_cases room : 0 < bsr.ring.free
    · rw [rteRingSpEnqueue_of_free _ _ room]
      exact owned_of_split (k := 1) (nodup_singleton obj) le_rfl (bsr.ring.enqueue_one_items obj room) rfl rfl
    · rw [rteRingSpEnqueue_of_full _ _ (by omega)]
      exact refused
  · exact refused

/-- When a burst keeps track of every mbuf: the whole batch fits the budget,
or the longest prefix that fits leaves at least 60 bytes and every later mbuf
is too long for them. The last case is a batch as long as the wrapped count. -/
def BsRing.BurstKeepsTrack (bsr : BsRing) (obj : List Mbuf) : Prop :=
  (∃ k, bsr.LongestFit obj k ∧ (k = obj.length ∨
    60 ≤ bsr.budget obj (min k bsr.ring.free) ∧
      ∀ m ∈ obj.drop k, bsr.budget obj (min k bsr.ring.free) < int32 m.pktLen.toNat)) ∨
  bsr.budget obj 0 < 0 ∧ obj.length = 2 ^ 32 - 1

/-- After a burst that stops at `k`, a prefix is stored and the rest is freed. -/
theorem burst_owned {bsr : BsRing} {k : Nat} (distinct : obj.Nodup)
    (value : numToAdd bsr obj = k) (within : k ≤ obj.length)
    (tail : k = obj.length ∨ 60 ≤ bsr.budget obj (min k bsr.ring.free) ∧
      ∀ m ∈ obj.drop k, bsr.budget obj (min k bsr.ring.free) < int32 m.pktLen.toNat) :
    ∃ after, bsringEnqueueBurst bsr obj = some after ∧ Owned bsr obj after := by
  have frees : retryLoop (obj.drop k) (burstStart bsr obj k) =
      { burstStart bsr obj k with freed := (burstStart bsr obj k).freed ++ obj.drop k } := by
    rcases tail with whole | ⟨enough, larger⟩
    · simp [whole, retryLoop]
    · obtain ⟨atLeast, fits⟩ := burstStart_tests bsr obj k
      rw [retryLoop_of_over fun m member => by rw [fits]; exact not_le.mpr (larger m member),
        if_pos (atLeast.mpr enough)]
  refine ⟨_, bsringEnqueueBurst_of_numToAdd value within, ?_⟩
  have small : min k bsr.ring.free < 2 ^ 31 := (Nat.min_le_right _ _).trans_lt bsr.ring.free_lt
  rw [frees]
  refine owned_of_split distinct ((Nat.min_le_left k bsr.ring.free).trans within) (burstStart_items bsr) ?_ ?_
  · have split := take_append_drop k obj
    simp only [burstStart]
    conv_rhs => rw [← split, drop_append_of_le_length (by rw [length_take]; omega)]
  · simpa only [burstStart] using int32_of_lt small

/-- A burst that stops at `k` in any other way loses track of an mbuf. -/
theorem burst_not_owned {bsr : BsRing} {k : Nat} (distinct : obj.Nodup)
    (value : numToAdd bsr obj = k) (short : k < obj.length)
    (bad : ¬(60 ≤ bsr.budget obj (min k bsr.ring.free) ∧
      ∀ m ∈ obj.drop k, bsr.budget obj (min k bsr.ring.free) < int32 m.pktLen.toNat))
    {after : BsEnqueued} (run : bsringEnqueueBurst bsr obj = some after) : ¬Owned bsr obj after := by
  obtain ⟨atLeast, fits⟩ := burstStart_tests bsr obj k
  obtain ⟨m, member, stored, freed, items, frees, same⟩ := @retryLoop_mishandles (obj.drop k) (burstStart bsr obj k)
    (distinct.sublist (drop_sublist ..)) (by simpa using short)
    (by simpa only [atLeast, fits, not_le] using bad)
  have apart := disjoint_take_drop distinct (le_refl k)
  have notKept : m ∉ obj.take (min k bsr.ring.free) :=
    fun early => apart (take_subset_take_left obj (Nat.min_le_left ..) early) member
  have notCut : m ∉ (burstStart bsr obj k).freed :=
    fun early => apart (mem_of_mem_drop early) member
  rw [bsringEnqueueBurst_of_numToAdd value short.le] at run
  cases Option.some.inj run
  rintro ⟨all, total, each, _⟩
  have split : all = obj.take (min k bsr.ring.free) ++ stored := by
    rw [burstStart_items, append_assoc] at items
    exact append_cancel_left (total.symm.trans items)
  have verdict := each m (mem_of_mem_drop member)
  simp only [frees, split, count_append, count_eq_zero.mpr notKept, count_eq_zero.mpr notCut, Nat.zero_add] at verdict
  have kept := count_pos_iff (a := m) (l := stored)
  have dropped := count_pos_iff (a := m) (l := freed)
  rw [← same] at dropped
  rcases verdict with ⟨one, zero⟩ | ⟨zero, one⟩
  · have present := kept.mp (by omega)
    have positive := dropped.mpr present
    omega
  · have present := dropped.mp (by omega)
    have positive := kept.mpr present
    omega

/-- Bulk and single enqueues always keep track of the mbufs that they are
given; a burst does so exactly under the condition above. -/
theorem bsring_enqueue_owned_iff (bsr : BsRing) (distinct : obj.Nodup) (word : obj.length < 2 ^ 32) (single : Mbuf) :
    Owned bsr obj (bsringEnqueueBulk bsr obj) ∧ Owned bsr [single] (bsringEnqueue bsr single) ∧
      ((∃ after, bsringEnqueueBurst bsr obj = some after ∧ Owned bsr obj after) ↔ bsr.BurstKeepsTrack obj) := by
  refine ⟨bsringEnqueueBulk_owned bsr distinct, bsringEnqueue_owned bsr single, ?_, ?_⟩
  · rintro ⟨after, run, owned⟩
    rcases numToAdd_spec bsr word with ⟨negative, _⟩ | longest
    · by_cases full : obj.length = 2 ^ 32 - 1
      · exact .inr ⟨negative, full⟩
      · rw [burst_out_of_bounds negative (by omega)] at run
        simp at run
    · refine .inl ⟨_, longest, or_iff_not_imp_left.mpr fun whole => ?_⟩
      by_contra bad
      exact burst_not_owned distinct rfl (by have := longest.within; omega) bad run owned
  · rintro (⟨k, longest, tail⟩ | ⟨negative, full⟩)
    · exact burst_owned distinct (longest.numToAdd_eq word) longest.within tail
    · have wrapped : numToAdd bsr obj = obj.length := by
        rcases numToAdd_spec bsr word with ⟨_, value⟩ | longest
        · rw [value, full]
        · have start := (longest.fits.mono (Nat.zero_le _)).2
          omega
      exact burst_owned distinct wrapped le_rfl (.inl rfl)

theorem bsring_enqueue_owned_iff_fresh :
    ∃ bsr, createBsring 200 = some bsr ∧
      Owned bsr [⟨1, 100⟩, ⟨2, 60⟩] (bsringEnqueueBulk bsr [⟨1, 100⟩, ⟨2, 60⟩]) ∧
      Owned bsr [⟨3, 60⟩] (bsringEnqueue bsr ⟨3, 60⟩) ∧
      ((∃ after, bsringEnqueueBurst bsr [⟨1, 100⟩, ⟨2, 60⟩] = some after ∧ Owned bsr [⟨1, 100⟩, ⟨2, 60⟩] after) ↔
        bsr.BurstKeepsTrack [⟨1, 100⟩, ⟨2, 60⟩]) := by
  obtain ⟨bsr, made⟩ := Option.isSome_iff_exists.mp (by decide : (createBsring 200).isSome)
  exact ⟨bsr, made, bsring_enqueue_owned_iff bsr (by decide) (by decide) ⟨3, 60⟩⟩

/-- A frame that is tried again behind one that is too long is stored and
freed, so the consumer later reads a buffer that is back in its pool. -/
theorem bsring_burst_stores_and_frees :
    ∃ bsr, createBsring 200 = some bsr ∧ ¬∃ after,
      bsringEnqueueBurst bsr [⟨1, 100⟩, ⟨2, 150⟩, ⟨3, 60⟩] = some after ∧
        Owned bsr [⟨1, 100⟩, ⟨2, 150⟩, ⟨3, 60⟩] after := by
  have result : (createBsring 200).bind (fun r => (bsringEnqueueBurst r [⟨1, 100⟩, ⟨2, 150⟩, ⟨3, 60⟩]).map
      fun e => (r.ring.items, e.bsr.ring.items, e.freed)) =
        some ([], [⟨1, 100⟩, ⟨3, 60⟩], [⟨2, 150⟩, ⟨3, 60⟩]) := by decide
  obtain ⟨bsr, made, called⟩ := Option.bind_eq_some_iff.mp result
  refine ⟨bsr, made, ?_⟩
  rintro ⟨after, run, stored, items, each, _⟩
  simp only [run, Option.map_some, Option.some.injEq, Prod.mk.injEq] at called
  obtain ⟨start, kept, freed⟩ := called
  rw [kept, start, nil_append] at items
  have verdict := each ⟨3, 60⟩ (by decide)
  rw [freed, ← items] at verdict
  revert verdict
  decide

end MoonGen
