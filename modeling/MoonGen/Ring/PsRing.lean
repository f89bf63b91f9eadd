import MoonGen.Lib.Doubling
import MoonGen.Ring.Mbuf
import MoonGen.Ring.RteRing

namespace MoonGen

universe u
variable {α : Type u}

/-- `struct ps_ring`: a DPDK ring whose contents are limited by packets. -/
structure PsRing (α : Type u) where
  ring : RteRing α
  capacity : UInt32
  deriving DecidableEq

def psRingSizeLimit : Nat := 268435455

/-- The loop of `create_psring`, which also leaves by its own test before 32
rounds are over. -/
def psringDoubling (capacity : Nat) : Nat := doubling (fun count => count < capacity + 1) 32 1

def createPsring (capacity : UInt32) : Option (PsRing α) :=
  let capacity := if psRingSizeLimit < capacity.toNat then UInt32.ofNat psRingSizeLimit else capacity
  let count := psringDoubling capacity.toNat
  (rteRingCreate count).map fun ring => { ring, capacity }

/-- What an enqueue call leaves behind. `handed` counts the objects that
passed the capacity check and went to the DPDK ring. -/
structure PsEnqueued (α : Type u) where
  psr : PsRing α
  freed : List α
  ret : Int
  handed : Nat
  deriving DecidableEq

/-- Unlike its siblings this function frees nothing, and its test is strict. -/
def psringEnqueueBulk (psr : PsRing α) (obj : List α) : PsEnqueued α :=
  if (psr.ring.count + obj.length) % 2 ^ 32 < psr.capacity.toNat then
    let (numAdded, ring) := rteRingSpEnqueueBulk psr.ring obj
    { psr := { psr with ring }, freed := [], ret := int32 numAdded, handed := obj.length }
  else { psr, freed := [], ret := 0, handed := 0 }

/-- The result is `none` when the call reads past the end of the batch. -/
def psringEnqueueBurst (psr : PsRing α) (obj : List α) : Option (PsEnqueued α) := do
  let count := psr.ring.count
  if psr.capacity.toNat < count then
    -- over capacity: nothing is added and nothing is freed
    return { psr, freed := [], ret := 0, handed := 0 }
  let numToAdd :=
    if psr.capacity.toNat < (count + obj.length) % 2 ^ 32 then psr.capacity.toNat - count else obj.length
  let (numAdded, ring) ← rteRingSpEnqueueBurst psr.ring obj numToAdd
  return { psr := { psr with ring }, freed := obj.drop numAdded, ret := int32 numAdded, handed := numToAdd }

def psringEnqueue (psr : PsRing α) (obj : α) : PsEnqueued α :=
  if (psr.ring.count + 1) % 2 ^ 32 ≤ psr.capacity.toNat then
    let (code, ring) := rteRingSpEnqueue psr.ring obj
    if code = 0 then { psr := { psr with ring }, freed := [], ret := 1, handed := 1 }
    else { psr := { psr with ring }, freed := [obj], ret := 0, handed := 1 }
  else { psr, freed := [obj], ret := 0, handed := 0 }

def psringDequeueBulk (psr : PsRing α) (n : Nat) : List α × PsRing α :=
  let (obj, ring) := rteRingScDequeueBulk psr.ring n
  (obj, { psr with ring })

def psringDequeueBurst (psr : PsRing α) (n : Nat) : List α × PsRing α :=
  let (obj, ring) := rteRingScDequeueBurst psr.ring n
  (obj, { psr with ring })

def psringDequeue (psr : PsRing α) : Option α × PsRing α :=
  match rteRingScDequeue psr.ring with
  | (_, obj, ring) => (obj, { psr with ring })

def psringCount (psr : PsRing α) : Nat := psr.ring.count

/-- Whatever the test on the capacity chooses, the ring grows by the first
objects of the batch, as many as the call returns. -/
theorem psringEnqueueBurst_items {psr : PsRing α} {obj : List α} {e : PsEnqueued α}
    (run : psringEnqueueBurst psr obj = some e) : e.psr.ring.items = psr.ring.items ++ obj.take e.ret.toNat := by
  by_cases larger : psr.capacity.toNat < psr.ring.count
  · simp only [psringEnqueueBurst, larger, if_true] at run
    cases Option.some.inj run
    simp
  · simp only [psringEnqueueBurst, larger, if_false] at run
    obtain ⟨⟨added, ring⟩, burst, rest⟩ := Option.bind_eq_some_iff.mp run
    cases Option.some.inj rest
    obtain ⟨items, fit⟩ := rteRingSpEnqueueBurst_items burst
    have value := int32_of_lt (fit.trans_lt psr.ring.free_lt)
    simpa [value] using items

end MoonGen
