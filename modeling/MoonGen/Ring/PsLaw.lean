import MoonGen.Ring.PsRing
import MoonGen.Ring.RteRing

namespace MoonGen

open List Option

universe u
variable {α : Type u}

inductive PsCall (α : Type u) where
  | enqueueBurst (obj : List α)
  | enqueue (obj : α)
  | dequeueBurst (n : Nat)
  | dequeueBulk (n : Nat)
  | dequeue
  deriving DecidableEq

/-- One enqueue call as its caller sees it: the first objects of the batch, as
many as the value returned says, are accepted. -/
structure PsOffer (α : Type u) where
  batch : List α
  accepted : List α
  freed : List α
  handed : Nat
  deriving DecidableEq

def PsEnqueued.offer (e : PsEnqueued α) (batch : List α) : PsOffer α :=
  { batch, accepted := batch.take e.ret.toNat, freed := e.freed, handed := e.handed }

/-- Everything that went in and came out so far, oldest first. -/
structure PsHistory (α : Type u) where
  offers : List (PsOffer α)
  dequeued : List α
  deriving DecidableEq

def PsHistory.offer (h : PsHistory α) (o : PsOffer α) : PsHistory α := { h with offers := h.offers ++ [o] }

def PsHistory.dequeue (h : PsHistory α) (obj : List α) : PsHistory α := { h with dequeued := h.dequeued ++ obj }

def PsRing.call (psr : PsRing α) (h : PsHistory α) : PsCall α → Option (PsRing α × PsHistory α)
  | .enqueueBurst obj => (psringEnqueueBurst psr obj).map fun e => (e.psr, h.offer (e.offer obj))
  | .enqueue obj => some ((psringEnqueue psr obj).psr, h.offer ((psringEnqueue psr obj).offer [obj]))
  | .dequeueBurst n => some ((psringDequeueBurst psr n).2, h.dequeue (psringDequeueBurst psr n).1)
  | .dequeueBulk n => some ((psringDequeueBulk psr n).2, h.dequeue (psringDequeueBulk psr n).1)
  | .dequeue => some ((psringDequeue psr).2, h.dequeue (psringDequeue psr).1.toList)

/-- The sum of the ring count and the batch size stays a 32-bit number. -/
def PsCall.Fits (psr : PsRing α) : PsCall α → Prop
  | .enqueueBurst obj => psr.ring.count + obj.length < 2 ^ 32
  | .enqueue _ => psr.ring.count + 1 < 2 ^ 32
  | _ => True

inductive PsReach (capacity : UInt32) : PsRing α → PsHistory α → Prop
  | create {psr} : createPsring capacity = some psr → PsReach capacity psr ⟨[], []⟩
  | call {psr h c after} : PsReach capacity psr h → c.Fits psr → psr.call h c = some after →
      PsReach capacity after.1 after.2

/-- The law of a packet ring: it never holds more than its capacity; what came
out and what is still queued are the accepted objects in the order of the
offers; each batch is accepted in front and freed behind; and the DPDK ring
took every mbuf that the capacity check let through. -/
structure PsLaw (capacity : UInt32) (psr : PsRing α) (h : PsHistory α) : Prop where
  within : psr.ring.count ≤ capacity.toNat
  order : h.dequeued ++ psr.ring.items = (h.offers.map PsOffer.accepted).flatten
  split : ∀ o ∈ h.offers, o.batch = o.accepted ++ o.freed
  taken : ∀ o ∈ h.offers, o.handed = o.accepted.length

/-- The law is inductive together with the size chosen at creation. -/
structure PsKept (capacity : UInt32) (psr : PsRing α) (h : PsHistory α) : Prop extends PsLaw capacity psr h where
  limit : psr.capacity = capacity
  slots : capacity.toNat ≤ psr.ring.slots

theorem psringDoubling_spec {capacity : Nat} (small : capacity < 2 ^ 27) :
    ∃ j ≤ 27, psringDoubling capacity = 2 ^ j ∧ capacity + 1 ≤ 2 ^ j := by
  obtain ⟨j, bound, ends⟩ := @exists_doubles (fun count => count < capacity + 1) 27 (by simp; omega)
  exact ⟨j, bound, ends.doubling_eq (by omega), by simpa using ends.ended⟩

variable {capacity : UInt32}

theorem createPsring_spec (small : capacity.toNat < 2 ^ 27) :
    ∃ psr : PsRing α, createPsring capacity = some psr ∧ PsKept capacity psr ⟨[], []⟩ := by
  obtain ⟨j, bound, value, reached⟩ := psringDoubling_spec small
  have asked : ¬psRingSizeLimit < capacity.toNat := by
    have size : psRingSizeLimit = 268435455 := rfl
    omega
  obtain ⟨ring, made, slots, items⟩ := @rteRingCreate_two_pow α j bound
  simp only [createPsring, asked, if_false, value, made, map_some]
  refine ⟨_, rfl, ⟨⟨?_, ?_, ?_, ?_⟩, rfl, by rw [slots]; omega⟩⟩
  · simp [BoundedFifo.count, items]
  · simp [items]
  · simp
  · simp

variable {psr : PsRing α} {h : PsHistory α}

theorem PsKept.room (kept : PsKept capacity psr h) {k : Nat}
    (fit : psr.ring.count + k ≤ capacity.toNat) : k ≤ psr.ring.free := by
  have balance := psr.ring.count_add_free
  have slots := kept.slots
  omega

/-- An enqueue that stores the first `k` objects of its batch and frees the rest. -/
structure PsEnqueued.Splits (e : PsEnqueued α) (psr : PsRing α) (obj : List α) (k : Nat) : Prop where
  inside : k ≤ obj.length
  limit : e.psr.capacity = psr.capacity
  slots : e.psr.ring.slots = psr.ring.slots
  items : e.psr.ring.items = psr.ring.items ++ obj.take k
  freed : e.freed = obj.drop k
  ret : e.ret = k
  handed : e.handed = k
section
variable (kept : PsKept capacity psr h)

include kept

theorem PsKept.accept {obj : List α} {k : Nat} {e : PsEnqueued α} (splits : e.Splits psr obj k)
    (fit : psr.ring.count + k ≤ capacity.toNat) : PsKept capacity e.psr (h.offer (e.offer obj)) := by
  have accepted : (e.offer obj).accepted = obj.take k := by
    simp [PsEnqueued.offer, splits.ret]
  have length : (obj.take k).length = k := by
    have inside := splits.inside
    rw [length_take]
    omega
  refine ⟨⟨?_, ?_, ?_, ?_⟩, splits.limit.trans kept.limit, by rw [splits.slots]; exact kept.slots⟩
  · simp only [BoundedFifo.count, splits.items, length_append, length]
    exact fit
  · simp only [PsHistory.offer, map_append, flatten_append, ← kept.order, splits.items, map_singleton,
      flatten_singleton, accepted, append_assoc]
  · intro o member
    rcases mem_append.mp member with old | new
    · exact kept.split o old
    · rw [mem_singleton.mp new, accepted]
      simp [PsEnqueued.offer, splits.freed]
  · intro o member
    rcases mem_append.mp member with old | new
    · exact kept.taken o old
    · rw [mem_singleton.mp new, accepted, length]
      exact splits.handed

/-- Taking out the oldest objects keeps the law. -/
theorem PsKept.release (n : Nat) :
    PsKept capacity { psr with ring := psr.ring.dequeue n } (h.dequeue (psr.ring.items.take n)) := by
  refine ⟨⟨?_, ?_, kept.split, kept.taken⟩, kept.limit, kept.slots⟩
  · have before := kept.within
    simp only [BoundedFifo.count, RteRing.dequeue_items, length_drop] at before ⊢
    omega
  · simp only [PsHistory.dequeue, RteRing.dequeue_items, append_assoc, take_append_drop]
    exact kept.order

theorem PsKept.enqueueBurst {obj : List α} (fits : psr.ring.count + obj.length < 2 ^ 32) :
    ∃ e, psringEnqueueBurst psr obj = some e ∧ PsKept capacity e.psr (h.offer (e.offer obj)) := by
  have within := kept.within
  have limit : psr.capacity.toNat = capacity.toNat := congrArg UInt32.toNat kept.limit
  have notOver : ¬psr.capacity.toNat < psr.ring.count := by omega
  have plain : (psr.ring.count + obj.length) % 2 ^ 32 = psr.ring.count + obj.length := Nat.mod_eq_of_lt fits
  -- both arms of the test on the capacity choose the largest count that fits
  obtain ⟨k, value, inside, fit⟩ : ∃ k, (if psr.capacity.toNat < psr.ring.count + obj.length then
      psr.capacity.toNat - psr.ring.count else obj.length) = k ∧ k ≤ obj.length ∧
      psr.ring.count + k ≤ capacity.toNat := by
    refine ⟨_, rfl, ?_⟩
    split <;> omega
  have room := kept.room fit
  have all : min k psr.ring.free = k := by omega
  simp only [psringEnqueueBurst, notOver, if_false, plain, value, rteRingSpEnqueueBurst_of_le _ inside,
    all, bind_eq_bind, bind_some]
  have stored : (obj.take k).length ≤ psr.ring.free := by rw [length_take]; omega
  have value := int32_of_lt (room.trans_lt psr.ring.free_lt)
  exact ⟨_, rfl, kept.accept ⟨inside, rfl, rfl, psr.ring.enqueue_items stored, rfl, value, rfl⟩ fit⟩

theorem PsKept.enqueue {obj : α} (fits : psr.ring.count + 1 < 2 ^ 32) :
    PsKept capacity (psringEnqueue psr obj).psr (h.offer ((psringEnqueue psr obj).offer [obj])) := by
  have within := kept.within
  have limit : psr.capacity.toNat = capacity.toNat := congrArg UInt32.toNat kept.limit
  have plain : (psr.ring.count + 1) % 2 ^ 32 = psr.ring.count + 1 := Nat.mod_eq_of_lt fits
  by_cases below : psr.ring.count + 1 ≤ psr.capacity.toNat
  · have fit : psr.ring.count + 1 ≤ capacity.toNat := by omega
    have splits : (psringEnqueue psr obj).Splits psr [obj] 1 := by
      simp only [psringEnqueue, plain, below, if_true, rteRingSpEnqueue_of_free _ _ (kept.room fit)]
      exact ⟨le_rfl, rfl, rfl, psr.ring.enqueue_one_items obj (kept.room fit), rfl, rfl, rfl⟩
    exact kept.accept splits fit
  · have splits : (psringEnqueue psr obj).Splits psr [obj] 0 := by
      simp only [psringEnqueue, plain, below, if_false]
      exact ⟨Nat.zero_le _, rfl, rfl, by simp, rfl, rfl, rfl⟩
    exact kept.accept splits within

theorem PsKept.dequeueBulk
    (n : Nat) : PsKept capacity (psringDequeueBulk psr n).2 (h.dequeue (psringDequeueBulk psr n).1) := by
  by_cases enough : n ≤ psr.ring.count
  · simp only [psringDequeueBulk, rteRingScDequeueBulk, enough, if_true]
    exact kept.release n
  · simp only [psringDequeueBulk, rteRingScDequeueBulk, enough, if_false, PsHistory.dequeue, append_nil]
    exact kept

theorem PsKept.dequeue : PsKept capacity (psringDequeue psr).2 (h.dequeue (psringDequeue psr).1.toList) := by
  cases items : psr.ring.items with
  | nil =>
    simp only [psringDequeue, rteRingScDequeue_of_nil _ items, PsHistory.dequeue, toList_none, append_nil]
    exact kept
  | cons m rest =>
    have released := kept.release 1
    simp only [psringDequeue, rteRingScDequeue_of_cons _ items]
    simpa [items] using released

/-- One call returns and keeps the law. -/
theorem PsKept.call {c : PsCall α}
    (fits : c.Fits psr) : ∃ after, psr.call h c = some after ∧ PsKept capacity after.1 after.2 := by
  cases c with
  | enqueueBurst obj =>
    obtain ⟨e, run, result⟩ := kept.enqueueBurst fits
    exact ⟨_, by rw [PsRing.call, run, map_some], result⟩
  | enqueue obj => exact ⟨_, rfl, kept.enqueue fits⟩
  | dequeueBurst n => exact ⟨_, rfl, kept.release n⟩
  | dequeueBulk n => exact ⟨_, rfl, kept.dequeueBulk n⟩
  | dequeue => exact ⟨_, rfl, kept.dequeue⟩
end

theorem PsReach.kept (small : capacity.toNat < 2 ^ 27) (reach : PsReach capacity psr h) : PsKept capacity psr h := by
  induction reach with
  | create made =>
    obtain ⟨fresh, run, kept⟩ := createPsring_spec small
    cases Option.some.inj (made.symm.trans run)
    exact kept
  | call previous fits run ih =>
    obtain ⟨after, result, kept⟩ := ih.call fits
    cases Option.some.inj (run.symm.trans result)
    exact kept

/-- The law holds in every run on a ring of capacity below `2 ^ 27`, which
`create_psring` can always make, and the next call always returns. -/
theorem psring_run_law (small : capacity.toNat < 2 ^ 27) :
    (∃ psr : PsRing α, createPsring capacity = some psr) ∧
      ∀ (psr : PsRing α) h, PsReach capacity psr h → PsLaw capacity psr h ∧
        ∀ c : PsCall α, c.Fits psr → ∃ after, psr.call h c = some after := by
  obtain ⟨fresh, made, _⟩ := createPsring_spec small
  refine ⟨⟨fresh, made⟩, fun psr h reach => ?_⟩
  have kept := reach.kept small
  refine ⟨kept.toPsLaw, fun c fits => ?_⟩
  obtain ⟨after, run, _⟩ := kept.call fits
  exact ⟨after, run⟩

theorem psring_run_law_five : (5 : UInt32).toNat < 2 ^ 27 ∧ ∃ (psr : PsRing Nat) (h : PsHistory Nat),
    PsReach 5 psr h ∧ PsLaw 5 psr h ∧ h.offers.map PsOffer.freed = [[15, 16]] ∧ h.dequeued = [10, 11] := by
  have small : (5 : UInt32).toNat < 2 ^ 27 := by decide
  obtain ⟨⟨psr, made⟩, law⟩ := @psring_run_law Nat 5 small
  have room : (createPsring 5 : Option (PsRing Nat)).all fun psr => psr.ring.count + 7 < 2 ^ 32 := by decide
  have run : (createPsring 5).bind (fun psr =>
      (PsRing.call psr ⟨[], []⟩ (.enqueueBurst [10, 11, 12, 13, 14, 15, 16])).bind fun filled =>
        (PsRing.call filled.1 filled.2 (.dequeueBurst 2)).map fun after =>
          (after.2.offers.map PsOffer.freed, after.2.dequeued)) = some ([[15, 16]], [10, 11]) := by decide
  rw [made, all_some, decide_eq_true_eq] at room
  have fits : PsCall.Fits psr (.enqueueBurst [10, 11, 12, 13, 14, 15, 16]) := room
  rw [made, bind_some] at run
  obtain ⟨filled, full, rest⟩ := bind_eq_some_iff.mp run
  obtain ⟨after, taken, seen⟩ := map_eq_some_iff.mp rest
  have always : PsCall.Fits filled.1 (.dequeueBurst 2) := trivial
  have reach : PsReach 5 after.1 after.2 := .call (.call (.create made) fits full) always taken
  obtain ⟨frees, dequeues⟩ := Prod.mk.inj seen
  exact ⟨small, after.1, after.2, reach, (law _ _ reach).1, frees, dequeues⟩

end MoonGen
