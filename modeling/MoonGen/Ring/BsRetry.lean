import Mathlib.Data.List.Nodup
import MoonGen.Ring.BsBurst

namespace MoonGen

open List

theorem Retry.attempt_of_over {s : Retry} {m : Mbuf} (larger : ¬m.pktLen.toInt32 ≤ s.bytesRemaining) :
    s.attempt m = { s with freed := s.freed ++ [m] } := by
  simp only [Retry.attempt, larger, if_false]

/-- An mbuf that is stored here is freed as well, and it is not counted. -/
theorem Retry.attempt_of_room {s : Retry} {m : Mbuf} (fits : m.pktLen.toInt32 ≤ s.bytesRemaining)
    (room : 0 < s.ring.free) :
    s.attempt m = { s with ring := s.ring.enqueue [m], freed := s.freed ++ [m] } := by
  simp only [Retry.attempt, fits, if_true, rteRingSpEnqueue_of_free _ _ room, ne_eq, not_true_eq_false, if_false]

/-- An mbuf that the full ring refuses is counted, and it is not freed. -/
theorem Retry.attempt_of_full {s : Retry} {m : Mbuf} (fits : m.pktLen.toInt32 ≤ s.bytesRemaining)
    (full : s.ring.free = 0) :
    s.attempt m = { s with
      bytesRemaining := s.bytesRemaining - m.pktLen.toInt32
      numAdded := s.numAdded + 1
      bytesAdded := s.bytesAdded + m.pktLen } := by
  have refused : -enobufs ≠ 0 := by decide
  simp only [Retry.attempt, fits, if_true, rteRingSpEnqueue_of_full _ _ full, refused, ne_eq, not_false_eq_true]

theorem Retry.attempt_cases (s : Retry) (m : Mbuf) :
    (¬m.pktLen.toInt32 ≤ s.bytesRemaining ∧ s.attempt m = { s with freed := s.freed ++ [m] }) ∨
    (m.pktLen.toInt32 ≤ s.bytesRemaining ∧ 0 < s.ring.free ∧
      s.attempt m = { s with ring := s.ring.enqueue [m], freed := s.freed ++ [m] }) ∨
    (m.pktLen.toInt32 ≤ s.bytesRemaining ∧ s.ring.free = 0 ∧ s.attempt m = { s with
      bytesRemaining := s.bytesRemaining - m.pktLen.toInt32
      numAdded := s.numAdded + 1
      bytesAdded := s.bytesAdded + m.pktLen }) := by
  by_cases fits : m.pktLen.toInt32 ≤ s.bytesRemaining
  · rcases Nat.eq_zero_or_pos s.ring.free with full | room
    · exact .inr (.inr ⟨fits, full, attempt_of_full fits full⟩)
    · exact .inr (.inl ⟨fits, room, attempt_of_room fits room⟩)
  · exact .inl ⟨fits, attempt_of_over fits⟩

/-- When no mbuf of the rest fits the budget, the loop stores nothing; it
frees the rest if at least 60 bytes are left, and leaves it alone otherwise. -/
theorem retryLoop_of_over {obj : List Mbuf} {s : Retry} (larger : ∀ m ∈ obj, ¬m.pktLen.toInt32 ≤ s.bytesRemaining) :
    retryLoop obj s = if 60 ≤ s.bytesRemaining then { s with freed := s.freed ++ obj } else s := by
  induction obj generalizing s with
  | nil => simp [retryLoop]
  | cons m obj ih =>
    have attempt := Retry.attempt_of_over (larger m (mem_cons_self ..))
    have rest := @ih (s.attempt m) (by rw [attempt]; exact fun x member => larger x (mem_cons_of_mem _ member))
    by_cases enough : 60 ≤ s.bytesRemaining
    · rw [retryLoop, if_pos enough, rest, attempt]
      simp [enough]
    · simp only [retryLoop, enough, if_false]

/-- The loop only appends, and only mbufs that it was given. -/
theorem retryLoop_extends (obj : List Mbuf) (s : Retry) :
    ∃ stored freed, (retryLoop obj s).ring.items = s.ring.items ++ stored ∧
      (retryLoop obj s).freed = s.freed ++ freed ∧ (∀ x ∈ stored, x ∈ obj) ∧ (∀ x ∈ freed, x ∈ obj) := by
  induction obj generalizing s with
  | nil => exact ⟨[], [], by simp [retryLoop], by simp [retryLoop], by simp, by simp⟩
  | cons m obj ih =>
    by_cases enough : 60 ≤ s.bytesRemaining
    · obtain ⟨stored, freed, items, frees, inStored, inFreed⟩ := ih (s.attempt m)
      have keep {xs : List Mbuf} (inside : ∀ x ∈ xs, x ∈ obj) : ∀ x ∈ xs, x ∈ m :: obj :=
        fun x member => mem_cons_of_mem _ (inside x member)
      have add {xs : List Mbuf} (inside : ∀ x ∈ xs, x ∈ obj) : ∀ x ∈ m :: xs, x ∈ m :: obj :=
        cons_subset_cons m inside
      rw [retryLoop, if_pos enough]
      obtain ⟨-, attempt⟩ | ⟨-, room, attempt⟩ | ⟨-, -, attempt⟩ := s.attempt_cases m
      · rw [attempt] at items frees ⊢
        exact ⟨stored, m :: freed, items, by simpa using frees, keep inStored, add inFreed⟩
      · rw [attempt] at items frees ⊢
        rw [s.ring.enqueue_one_items m room] at items
        exact ⟨m :: stored, m :: freed, by simpa using items, by simpa using frees, add inStored, add inFreed⟩
      · rw [attempt] at items frees ⊢
        exact ⟨stored, freed, items, frees, keep inStored, keep inFreed⟩
    · exact ⟨[], [], by simp [retryLoop, enough], by simp [retryLoop, enough], by simp, by simp⟩

/-- In every other case some mbuf of the rest ends up stored and freed, or
neither stored nor freed. -/
theorem retryLoop_mishandles {obj : List Mbuf} {s : Retry} (distinct : obj.Nodup) (nonempty : obj ≠ [])
    (bad : ¬(60 ≤ s.bytesRemaining ∧ ∀ m ∈ obj, ¬m.pktLen.toInt32 ≤ s.bytesRemaining)) :
    ∃ m ∈ obj, ∃ stored freed, (retryLoop obj s).ring.items = s.ring.items ++ stored ∧
      (retryLoop obj s).freed = s.freed ++ freed ∧ (m ∈ stored ↔ m ∈ freed) := by
  induction obj generalizing s with
  | nil => exact absurd rfl nonempty
  | cons m obj ih =>
    obtain ⟨fresh, rest⟩ := nodup_cons.mp distinct
    by_cases enough : 60 ≤ s.bytesRemaining
    · rw [retryLoop, if_pos enough]
      obtain ⟨stored, freed, items, frees, inStored, inFreed⟩ := retryLoop_extends obj (s.attempt m)
      obtain ⟨fits, attempt⟩ | ⟨-, room, attempt⟩ | ⟨-, -, attempt⟩ := s.attempt_cases m
      · obtain ⟨x, member, stored, freed, items, frees, same⟩ := @ih (s.attempt m) rest
          (by rintro rfl; exact bad ⟨enough, by simpa using fits⟩)
          (by
            rw [attempt]
            rintro ⟨_, larger⟩
            exact bad ⟨enough, forall_mem_cons.mpr ⟨fits, larger⟩⟩)
        have other : x ≠ m := fun equal => fresh (equal ▸ member)
        rw [attempt] at items frees ⊢
        exact ⟨x, mem_cons_of_mem _ member, stored, m :: freed, items, by simpa using frees,
          by simpa [other] using same⟩
      · rw [attempt] at items frees ⊢
        rw [s.ring.enqueue_one_items m room] at items
        exact ⟨m, mem_cons_self .., m :: stored, m :: freed, by simpa using items, by simpa using frees, by simp⟩
      · rw [attempt] at items frees ⊢
        exact ⟨m, mem_cons_self .., stored, freed, items, frees,
          fun member => absurd (inStored m member) fresh, fun member => absurd (inFreed m member) fresh⟩
    · exact ⟨m, mem_cons_self .., [], [], by simp [retryLoop, enough], by simp [retryLoop, enough], by simp⟩

theorem burstStart_items (bsr : BsRing) {obj : List Mbuf} {k : Nat} :
    (burstStart bsr obj k).ring.items = bsr.ring.items ++ obj.take (min k bsr.ring.free) := by
  have fit : (obj.take (min k bsr.ring.free)).length ≤ bsr.ring.free := by
    rw [length_take]; omega
  exact bsr.ring.enqueue_items fit

/-- The two tests of the loop, read as statements about the byte budget. -/
theorem burstStart_tests (bsr : BsRing) (obj : List Mbuf) (k : Nat) :
    (60 ≤ (burstStart bsr obj k).bytesRemaining ↔ 60 ≤ bsr.budget obj (min k bsr.ring.free)) ∧
    ∀ m : Mbuf, m.pktLen.toInt32 ≤ (burstStart bsr obj k).bytesRemaining ↔
      int32 m.pktLen.toNat ≤ bsr.budget obj (min k bsr.ring.free) := by
  have sixty : (60 : Int32).toInt = 60 := by decide
  rw [budget_eq_toInt]
  constructor
  · rw [Int32.le_iff_toInt_le, sixty, burstStart]
  · intro m
    rw [Int32.le_iff_toInt_le, int32_toNat, burstStart]

end MoonGen
