import MoonGen.Lib.Machine
import MoonGen.Ring.RteIndex

namespace MoonGen

open List Nat

universe u
variable {α : Type u}

/-- The local variables of `__rte_ring_do_enqueue` while it copies: the slot that is written next, the objects that
are left and the tail to be published. -/
structure Enqueuing (α : Type u) where
  idx : Nat
  objs : List α
  prodNext : UInt32

structure Dequeuing where
  idx : Nat
  left : Nat
  consNext : UInt32

/-- A ring between one thread that enqueues and one that dequeues. `added` are the objects for which the calls of the
first one made room so far, `taken` is what the second one read. -/
structure RteThreads (α : Type u) where
  ring : RteIndexRing α
  producer : Option (Enqueuing α) := none
  consumer : Option Dequeuing := none
  added : List α := []
  taken : List (Option α) := []

/-- The accesses to the shared fields, in the order in which a call makes them. Each thread alone writes and reads its
own head, so that moving it is one access with the read of the other thread's tail. -/
inductive RteAccess (α : Type u) where
  | moveProdHead (obj : List α) (n : UInt32) (behavior : RteRingQueueBehavior)
  | store
  | updateProdTail
  | moveConsHead (n : UInt32) (behavior : RteRingQueueBehavior)
  | load
  | updateConsTail

/-- The step of `idx` in `ENQUEUE_PTRS` and `DEQUEUE_PTRS`. -/
def RteIndexRing.nextIdx (r : RteIndexRing α) (idx : Nat) : Nat :=
  if idx + 1 < r.size.toNat then idx + 1 else 0

namespace RteThreads

/-- One access; `none` where the thread's next access is another one. -/
def access (s : RteThreads α) : RteAccess α → Option (RteThreads α)
  | .moveProdHead obj n behavior =>
    let prodHead := s.ring.prod.head
    let n := behavior.moved n (s.ring.capacity + s.ring.cons.tail - prodHead)
    match s.producer with
    | some _ => none
    | none =>
      if n = 0 then some s
      else if obj.length < n.toNat then none
      else some { s with
        ring := { s.ring with prod := ⟨prodHead + n, s.ring.prod.tail⟩ }
        producer := some ⟨(prodHead &&& s.ring.mask).toNat, obj.take n.toNat, prodHead + n⟩
        added := s.added ++ obj.take n.toNat }
  | .store =>
    match s.producer with
    | some ⟨idx, obj :: objs, prodNext⟩ => some { s with
        ring := { s.ring with table := Function.update s.ring.table idx (some obj) }
        producer := some ⟨s.ring.nextIdx idx, objs, prodNext⟩ }
    | _ => none
  | .updateProdTail =>
    match s.producer with
    | some ⟨_, [], prodNext⟩ => some { s with
        ring := { s.ring with prod := ⟨s.ring.prod.head, prodNext⟩ }
        producer := none }
    | _ => none
  | .moveConsHead n behavior =>
    let consHead := s.ring.cons.head
    let n := behavior.moved n (s.ring.prod.tail - consHead)
    match s.consumer with
    | some _ => none
    | none =>
      if n = 0 then some s
      else some { s with
        ring := { s.ring with cons := ⟨consHead + n, s.ring.cons.tail⟩ }
        consumer := some ⟨(consHead &&& s.ring.mask).toNat, n.toNat, consHead + n⟩ }
  | .load =>
    match s.consumer with
    | some ⟨idx, left + 1, consNext⟩ => some { s with
        consumer := some ⟨s.ring.nextIdx idx, left, consNext⟩
        taken := s.taken ++ [s.ring.table idx] }
    | _ => none
  | .updateConsTail =>
    match s.consumer with
    | some ⟨_, 0, consNext⟩ => some { s with
        ring := { s.ring with cons := ⟨s.ring.cons.head, consNext⟩ }
        consumer := none }
    | _ => none

/-- The objects that are not yet stored. -/
def pending (s : RteThreads α) : List α :=
  s.producer.elim [] Enqueuing.objs

/-- How many objects the running call will still read. -/
def left (s : RteThreads α) : Nat :=
  s.consumer.elim 0 Dequeuing.left

end RteThreads

/-- All orders of the accesses of the two threads, from a ring on that holds a queue. -/
def rteThreads : Machine (RteThreads α) (RteAccess α) where
  start s := ∃ q, s.ring.Represents q ∧ s = { ring := s.ring, added := q.items }
  enabled s a := (s.access a).isSome
  next s a := (s.access a).getD s

instance (s : RteThreads α) (a : RteAccess α) : Decidable (rteThreads.enabled s a) :=
  inferInstanceAs (Decidable (_ = true))

/-- The indices count objects: those with room, stored and published on the one side, those claimed, read and released
on the other. Between the released and the stored ones the slots hold the objects. -/
structure RteThreads.Inv (s : RteThreads α) (base : Nat) (stored : List α) (published released : Nat) : Prop where
  size : ∃ k ≤ 27, s.ring.size.toNat = 2 ^ k
  mask : s.ring.mask.toNat + 1 = s.ring.size.toNat
  capacity : s.ring.capacity = s.ring.mask
  added : s.added = stored ++ s.pending
  prodHead : s.ring.prod.head.toNat = (base + s.added.length) % 2 ^ 32
  prodTail : s.ring.prod.tail.toNat = (base + published) % 2 ^ 32
  consHead : s.ring.cons.head.toNat = (base + (s.taken.length + s.left)) % 2 ^ 32
  consTail : s.ring.cons.tail.toNat = (base + released) % 2 ^ 32
  producer : ∀ p, s.producer = some p →
    p.idx = (base + stored.length) % s.ring.size.toNat ∧ p.prodNext = s.ring.prod.head
  idle : s.producer = none → published = stored.length
  consumer : ∀ c, s.consumer = some c →
    c.idx = (base + s.taken.length) % s.ring.size.toNat ∧ c.consNext = s.ring.cons.head
  waits : s.consumer = none → released = s.taken.length
  read : released ≤ s.taken.length
  claimed : s.taken.length + s.left ≤ published
  visible : published ≤ stored.length
  room : s.added.length ≤ released + s.ring.mask.toNat
  holds : ∀ i, released ≤ i → i < stored.length → s.ring.table ((base + i) % s.ring.size.toNat) = stored[i]?
  got : s.taken = (stored.take s.taken.length).map some

namespace RteThreads.Inv

variable {s t : RteThreads α} {base : Nat} {stored : List α} {published released : Nat}

theorem start {r : RteIndexRing α} {q : RteRing α} (rep : r.Represents q) :
    Inv { ring := r, added := q.items } r.cons.head.toNat q.items q.items.length 0 where
  size := rep.size
  mask := rep.mask
  capacity := rep.capacity
  added := (append_nil _).symm
  prodHead := rep.count
  prodTail := by rw [rep.prod]; exact rep.count
  consHead := (mod_eq_of_lt r.cons.head.toNat_lt).symm
  consTail := by rw [rep.cons]; exact (mod_eq_of_lt r.cons.head.toNat_lt).symm
  producer _ wrong := nomatch wrong
  idle _ := rfl
  consumer _ wrong := nomatch wrong
  waits _ := rfl
  read := le_rfl
  claimed := Nat.zero_le _
  visible := le_rfl
  room := by
    have mask := rep.mask
    have slots := rep.slots
    have bounded := q.bounded
    simp only
    omega
  holds i _ inside := rep.holds i inside
  got := rfl

theorem left_waits (waits : s.consumer = none) : s.left = 0 := by
  rw [left, waits, Option.elim_none]

section
variable (inv : s.Inv base stored published released)
include inv

/-- How the numbers of objects compare. -/
theorem order :
    released ≤ s.taken.length ∧ s.taken.length + s.left ≤ published ∧ published ≤ stored.length ∧
      s.added.length = stored.length + s.pending.length ∧ s.added.length ≤ released + s.ring.mask.toNat ∧
      s.ring.mask.toNat < 2 ^ 27 := by
  refine ⟨inv.read, inv.claimed, inv.visible, by rw [inv.added, length_append], inv.room, ?_⟩
  obtain ⟨k, bound, value⟩ := inv.size
  have size : 2 ^ k ≤ 2 ^ 27 := Nat.pow_le_pow_right (by omega) bound
  have mask := inv.mask
  omega

theorem mod_size (n : Nat) : n % 2 ^ 32 % s.ring.size.toNat = n % s.ring.size.toNat := by
  obtain ⟨k, bound, size⟩ := inv.size
  rw [size]
  exact mod_mod_of_dvd _ (Nat.pow_dvd_pow 2 (by omega))

theorem slot {index : UInt32} {n : Nat}
    (value : index.toNat = n % 2 ^ 32) : (index &&& s.ring.mask).toNat = n % s.ring.size.toNat := by
  obtain ⟨k, bound, size⟩ := inv.size
  have mask : s.ring.mask.toNat = 2 ^ k - 1 := by
    have mask := inv.mask
    omega
  rw [UInt32.toNat_and, mask, and_two_pow_sub_one_eq_mod, ← size, value, inv.mod_size]

theorem nextIdx (n : Nat) : s.ring.nextIdx (n % s.ring.size.toNat) = (n + 1) % s.ring.size.toNat := by
  have mask := inv.mask
  have below : n % s.ring.size.toNat < s.ring.size.toNat := mod_lt _ (by omega)
  rw [RteIndexRing.nextIdx, ← mod_add_mod]
  split
  case isTrue inside => exact (mod_eq_of_lt inside).symm
  case isFalse last =>
    have around : n % s.ring.size.toNat + 1 = s.ring.size.toNat := by omega
    rw [around, mod_self]

/-- The free entries that the producer computes, whatever the consumer does. -/
theorem free :
    (s.ring.capacity + s.ring.cons.tail - s.ring.prod.head).toNat + s.added.length = released + s.ring.mask.toNat := by
  have order := inv.order
  have head := inv.prodHead
  have tail := inv.consTail
  rw [inv.capacity, UInt32.toNat_sub, UInt32.toNat_add]
  omega

/-- The entries that the consumer computes, whatever the producer does. -/
theorem entries : (s.ring.prod.tail - s.ring.cons.head).toNat + (s.taken.length + s.left) = published := by
  have order := inv.order
  have tail := inv.prodTail
  have head := inv.consHead
  rw [UInt32.toNat_sub]
  omega

theorem added_idle (idle : s.producer = none) : s.added = stored := by
  rw [inv.added, pending, idle, Option.elim_none, append_nil]

theorem moveProdHead {obj : List α} {n : UInt32}
    {behavior : RteRingQueueBehavior} (step : s.access (.moveProdHead obj n behavior) = some t) :
    t.Inv base stored published released := by
  have least := behavior.moved_le n (s.ring.capacity + s.ring.cons.tail - s.ring.prod.head)
  have free := inv.free
  have head := inv.prodHead
  simp only [access] at step
  generalize behavior.moved n (s.ring.capacity + s.ring.cons.tail - s.ring.prod.head) = n at least step
  cases idle : s.producer with
  | some _ => simp [idle] at step
  | none =>
    simp only [idle] at step
    split at step
    · cases step
      exact inv
    · split at step
      · cases step
      · rename_i long
        cases step
        have all := inv.added_idle idle
        have length : (s.added ++ obj.take n.toNat).length = s.added.length + n.toNat := by
          rw [length_append, length_take_of_le (Nat.not_lt.mp long)]
        refine { inv with
          added := by rw [all]; rfl
          prodHead := by rw [length, UInt32.toNat_add]; omega
          producer := ?_
          idle := fun wrong => nomatch wrong
          room := length.trans_le (show s.added.length + n.toNat ≤ released + s.ring.mask.toNat by omega) }
        rintro p ⟨⟩
        exact ⟨by rw [← all]; exact inv.slot head, rfl⟩

theorem store (step : s.access .store = some t) : ∃ obj, t.Inv base (stored ++ [obj]) published released := by
  simp only [access] at step
  split at step
  · rename_i idx obj objs prodNext busy
    cases step
    obtain ⟨place, next⟩ := inv.producer _ busy
    simp only at place
    have rest : s.pending = obj :: objs := by rw [pending, busy]; rfl
    have order := inv.order
    rw [rest, length_cons] at order
    have mask := inv.mask
    have inside : s.taken.length ≤ stored.length := by omega
    refine ⟨obj, { inv with
      added := by rw [inv.added, rest, append_assoc]; rfl
      producer := ?_
      idle := fun wrong => nomatch wrong
      visible := by rw [length_append]; omega
      holds := fun i low high => ?_
      got := by rw [take_append_of_le_length inside]; exact inv.got }⟩
    · rintro p ⟨⟩
      exact ⟨by rw [length_append, place]; exact inv.nextIdx (base + stored.length), next⟩
    · show Function.update s.ring.table idx (some obj) ((base + i) % s.ring.size.toNat) = _
      rw [length_append, length_singleton] at high
      rw [place]
      rcases Nat.lt_or_ge i stored.length with old | new
      · -- The slot of an object that is not yet released is another one.
        rw [Function.update_of_ne (Circular.mod_ne_of_lt (Nat.add_lt_add_left old base) (by omega)), inv.holds i low old,
          getElem?_append_left old]
      · obtain rfl : i = stored.length := by omega
        rw [Function.update_self, getElem?_concat_length]
  · cases step

theorem updateProdTail (step : s.access .updateProdTail = some t) : t.Inv base stored stored.length released := by
  simp only [access] at step
  split at step
  · rename_i idx prodNext busy
    cases step
    have all : s.added = stored := by
      rw [inv.added, pending, busy]
      exact append_nil _
    refine { inv with
      added := by rw [all]; exact (append_nil _).symm
      prodTail := ?_
      producer := fun p wrong => nomatch wrong
      idle := fun _ => rfl
      claimed := inv.claimed.trans inv.visible
      visible := le_rfl }
    show prodNext.toNat = (base + stored.length) % 2 ^ 32
    rw [← all, ← inv.prodHead]
    exact congrArg UInt32.toNat (inv.producer _ busy).2
  · cases step

theorem moveConsHead {n : UInt32} {behavior : RteRingQueueBehavior}
    (step : s.access (.moveConsHead n behavior) = some t) : t.Inv base stored published released := by
  have least := behavior.moved_le n (s.ring.prod.tail - s.ring.cons.head)
  have entries := inv.entries
  have head := inv.consHead
  simp only [access] at step
  generalize behavior.moved n (s.ring.prod.tail - s.ring.cons.head) = n at least step
  cases waits : s.consumer with
  | some _ => simp [waits] at step
  | none =>
    simp only [waits] at step
    rw [left_waits waits, Nat.add_zero] at head entries
    split at step
    · cases step
      exact inv
    · cases step
      refine { inv with
        consHead := ?_
        consumer := ?_
        waits := fun wrong => nomatch wrong
        claimed := show s.taken.length + n.toNat ≤ published by omega }
      · show (s.ring.cons.head + n).toNat = (base + (s.taken.length + n.toNat)) % 2 ^ 32
        rw [UInt32.toNat_add]
        omega
      · rintro c ⟨⟩
        exact ⟨inv.slot head, rfl⟩

theorem load (step : s.access .load = some t) : t.Inv base stored published released := by
  simp only [access] at step
  split at step
  · rename_i idx left consNext busy
    cases step
    obtain ⟨place, next⟩ := inv.consumer _ busy
    simp only at place
    have rest : s.left = left + 1 := by rw [RteThreads.left, busy]; rfl
    have head := inv.consHead
    have order := inv.order
    rw [rest] at head order
    have inside : s.taken.length < stored.length := by omega
    have length : (s.taken ++ [s.ring.table idx]).length = s.taken.length + 1 := length_append
    refine { inv with
      consHead := by rw [length, Nat.add_right_comm]; exact head
      consumer := ?_
      waits := fun wrong => nomatch wrong
      read := by rw [length]; omega
      claimed := by rw [length, Nat.add_right_comm]; exact order.2.1
      got := ?_ }
    · rintro c ⟨⟩
      exact ⟨by rw [length, place]; exact inv.nextIdx (base + s.taken.length), next⟩
    · rw [length, take_add_one, map_append, ← inv.got, place, inv.holds _ order.1 inside,
        getElem?_eq_getElem inside]
      rfl
  · cases step

theorem updateConsTail (step : s.access .updateConsTail = some t) : t.Inv base stored published s.taken.length := by
  simp only [access] at step
  split at step
  · rename_i idx consNext busy
    cases step
    have rest : s.left = 0 := by rw [left, busy]; rfl
    have head := inv.consHead
    have claimed := inv.claimed
    rw [rest] at head claimed
    refine { inv with
      consHead := head
      consTail := ?_
      consumer := fun c wrong => nomatch wrong
      waits := fun _ => rfl
      read := le_rfl
      claimed := claimed
      room := inv.room.trans (Nat.add_le_add_right inv.read _)
      holds := fun i low high => inv.holds i (inv.read.trans low) high }
    show consNext.toNat = (base + s.taken.length) % 2 ^ 32
    rw [congrArg UInt32.toNat (inv.consumer _ busy).2]
    exact head
  · cases step

theorem access {a : RteAccess α} (step : s.access a = some t) :
    ∃ stored published released, t.Inv base stored published released := by
  cases a with
  | moveProdHead => exact ⟨_, _, _, inv.moveProdHead step⟩
  | store =>
    obtain ⟨_, after⟩ := inv.store step
    exact ⟨_, _, _, after⟩
  | updateProdTail => exact ⟨_, _, _, inv.updateProdTail step⟩
  | moveConsHead => exact ⟨_, _, _, inv.moveConsHead step⟩
  | load => exact ⟨_, _, _, inv.load step⟩
  | updateConsTail => exact ⟨_, _, _, inv.updateConsTail step⟩

theorem represents (idle : s.producer = none) (waits : s.consumer = none) :
    ∃ q : RteRing α, s.ring.Represents q ∧ s.added.map some = s.taken ++ q.items.map some := by
  have order := inv.order
  have free := inv.waits waits
  have all := inv.added_idle idle
  have zero := left_waits waits
  have head := inv.consHead
  have tail := inv.prodHead
  rw [zero, Nat.add_zero] at head
  rw [all] at tail order
  let q : RteRing α := {
    slots := s.ring.mask.toNat
    items := stored.drop s.taken.length
    bounded := by rw [length_drop]; omega
    sized := by rw [rteRingSzMask]; omega }
  refine ⟨q, ?_, ?_⟩
  · exact {
      size := inv.size
      mask := inv.mask
      capacity := inv.capacity
      slots := inv.mask
      prod := by
        rw [← UInt32.toNat_inj, inv.prodTail, inv.prodHead, inv.idle idle, all]
      cons := by
        rw [← UInt32.toNat_inj, inv.consTail, inv.consHead, zero, free, Nat.add_zero]
      count := by
        show s.ring.prod.head.toNat = (s.ring.cons.head.toNat + (stored.drop s.taken.length).length) % 2 ^ 32
        rw [length_drop]
        omega
      holds := by
        intro i inside
        have bound : s.taken.length + i < stored.length := by
          have bound : i < (stored.drop s.taken.length).length := inside
          rw [length_drop] at bound
          omega
        show s.ring.table ((s.ring.cons.head.toNat + i) % s.ring.size.toNat) = (stored.drop s.taken.length)[i]?
        rw [head, add_mod, inv.mod_size, ← add_mod, Nat.add_assoc, inv.holds _ (by omega) bound,
          getElem?_drop] }
  · show s.added.map some = s.taken ++ (stored.drop s.taken.length).map some
    rw [all, inv.got, ← map_append, length_map, length_take_of_le (by omega), take_append_drop]

end

end RteThreads.Inv

theorem RteThreads.reach_inv {s : RteThreads α} (reach : rteThreads.Reach s) :
    ∃ base stored published released, s.Inv base stored published released := by
  induction reach with
  | start first =>
    obtain ⟨q, rep, same⟩ := first
    rw [same]
    exact ⟨_, _, _, _, .start rep⟩
  | @step s a _ able ih =>
    obtain ⟨base, stored, published, released, inv⟩ := ih
    obtain ⟨t, step⟩ := Option.isSome_iff_exists.mp able
    show ∃ base stored published released, RteThreads.Inv ((s.access a).getD s) base stored published released
    rw [step]
    exact ⟨base, inv.access step⟩

/-- An empty ring with room for three objects, of which the indices are about to wrap. -/
def RteThreads.wrapping : RteThreads Nat where
  ring := ⟨4, 3, 3, ⟨4294967294, 4294967294⟩, ⟨4294967294, 4294967294⟩, fun _ => none⟩

theorem RteThreads.wrapping_start : rteThreads.start wrapping := by
  refine ⟨⟨⟨3, [], by decide⟩, by decide⟩, ?_, rfl⟩
  exact {
    size := ⟨2, by decide, rfl⟩
    mask := rfl
    capacity := rfl
    slots := rfl
    prod := rfl
    cons := rfl
    count := rfl
    holds := fun i inside => absurd inside (Nat.not_lt_zero i) }

/-- In every order of the accesses the consumer reads the objects in the order in which they were added, each one once
and none before it is stored; the ring never holds more of them than its capacity, and neither thread ever computes
more free entries, or more entries, than that. -/
theorem rteThreads_fifo {s : RteThreads α} (reach : rteThreads.Reach s) :
    s.taken = (s.added.take s.taken.length).map some ∧
      s.added.length ≤ s.taken.length + s.ring.capacity.toNat ∧
      s.ring.capacity + s.ring.cons.tail - s.ring.prod.head ≤ s.ring.capacity ∧
      s.ring.prod.tail - s.ring.cons.head ≤ s.ring.capacity := by
  obtain ⟨base, stored, published, released, inv⟩ := RteThreads.reach_inv reach
  have free := inv.free
  have entries := inv.entries
  have order := inv.order
  simp only [UInt32.le_iff_toNat_le]
  refine ⟨?_, by rw [inv.capacity]; omega, ?_, by rw [inv.capacity]; omega⟩
  · rw [inv.added, take_append_of_le_length (show s.taken.length ≤ stored.length by omega)]
    exact inv.got
  · rw [inv.capacity] at free ⊢
    omega

/-- Three objects fill the ring. While two of them are read there is no room, and with the tail published two more
are added. -/
def RteThreads.refill : List (RteAccess Nat) :=
  [.moveProdHead [1, 2, 3] 3 .queueFixed, .store, .moveConsHead 1 .queueFixed, .store, .store, .updateProdTail,
    .moveConsHead 2 .queueVariable, .load, .moveProdHead [4] 1 .queueFixed, .load, .updateConsTail,
    .moveProdHead [4, 5, 6] 3 .queueVariable, .store]

theorem rteThreads_fifo_refill : ∃ s : RteThreads Nat, rteThreads.Reach s ∧ s.added = [1, 2, 3, 4, 5] ∧
    s.taken = [some 1, some 2] ∧ s.taken = (s.added.take s.taken.length).map some ∧
      s.added.length ≤ s.taken.length + s.ring.capacity.toNat ∧
      s.ring.capacity + s.ring.cons.tail - s.ring.prod.head ≤ s.ring.capacity ∧
      s.ring.prod.tail - s.ring.cons.head ≤ s.ring.capacity := by
  have run : rteThreads.leadsTo (fun s => s.added = [1, 2, 3, 4, 5] && s.taken = [some 1, some 2])
      RteThreads.wrapping RteThreads.refill = true := by
    decide +kernel
  obtain ⟨s, reach, seen⟩ := Machine.reach_of_leadsTo run (.start RteThreads.wrapping_start)
  simp only [Bool.and_eq_true, decide_eq_true_eq] at seen
  exact ⟨s, reach, seen.1, seen.2, rteThreads_fifo reach⟩

/-- Whenever neither thread is in a call, the ring holds a queue again, with the objects that were added and not yet
read. -/
theorem rteThreads_represents {s : RteThreads α} (reach : rteThreads.Reach s) (idle : s.producer = none)
    (waits : s.consumer = none) :
    ∃ q : RteRing α, s.ring.Represents q ∧ s.added.map some = s.taken ++ q.items.map some := by
  obtain ⟨_, _, _, _, inv⟩ := RteThreads.reach_inv reach
  exact inv.represents idle waits

theorem rteThreads_represents_refill : ∃ s : RteThreads Nat, rteThreads.Reach s ∧ s.added = [1, 2, 3, 4, 5] ∧
    s.taken = [some 1, some 2] ∧
      ∃ q : RteRing Nat, s.ring.Represents q ∧ s.added.map some = s.taken ++ q.items.map some := by
  have run : rteThreads.leadsTo (fun s => s.producer.isNone && s.consumer.isNone && s.added = [1, 2, 3, 4, 5] &&
      s.taken = [some 1, some 2]) RteThreads.wrapping (RteThreads.refill ++ [.store, .updateProdTail]) = true := by
    decide +kernel
  obtain ⟨s, reach, seen⟩ := Machine.reach_of_leadsTo run (.start RteThreads.wrapping_start)
  simp only [Bool.and_eq_true, decide_eq_true_eq, Option.isNone_iff_eq_none] at seen
  obtain ⟨⟨⟨idle, waits⟩, added⟩, taken⟩ := seen
  exact ⟨s, reach, added, taken, rteThreads_represents reach idle waits⟩

end MoonGen
