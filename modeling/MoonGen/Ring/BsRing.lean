import MoonGen.Lib.Doubling
import MoonGen.Ring.Mbuf
import MoonGen.Ring.RteRing

namespace MoonGen

/-- `struct bs_ring`: a DPDK ring whose contents are limited by bytes. -/
structure BsRing where
  ring : RteRing Mbuf
  capacity : UInt32
  bytesUsed : UInt32
  deriving DecidableEq

def bsRingSizeLimit : Nat := 268435455

/-- The loop of `create_bsring`. It leaves by its own test long before 32
rounds are over. -/
def bsringDoubling (countMin : Nat) : Nat :=
  doubling (fun count => count - 1 < countMin && count ≤ bsRingSizeLimit) 32 1

def createBsring (capacity : UInt32) : Option BsRing :=
  let countMin := capacity.toNat / 60
  let count := bsringDoubling countMin
  let count := if bsRingSizeLimit < count then count / 2 else count
  (rteRingCreate count).map fun ring => { ring, capacity, bytesUsed := 0 }

/-- What an enqueue call leaves behind: the ring, the mbufs it gave back to
their pool in the order of the calls to `rte_pktmbuf_free`, and its value. -/
structure BsEnqueued where
  bsr : BsRing
  freed : List Mbuf
  ret : Int
  deriving DecidableEq

def bsringEnqueueBulk (bsr : BsRing) (obj : List Mbuf) : BsEnqueued :=
  if bsr.bytesUsed + totalSize obj > bsr.capacity then
    { bsr, freed := obj, ret := 0 }
  else
    let (numAdded, ring) := rteRingSpEnqueueBulk bsr.ring obj
    { bsr := { bsr with ring, bytesUsed := bsr.bytesUsed + totalSize (obj.take numAdded) }
      freed := obj.drop numAdded
      ret := int32 numAdded }

/-- `while ((i < n) && (bytes_remaining > 0))`: counts the mbufs from the start
of the batch, the first one that overdraws the budget included. -/
def fitLoop : List Mbuf → Int32 → Nat → Nat × Int32
  | [], bytesRemaining, numToAdd => (numToAdd, bytesRemaining)
  | m :: obj, bytesRemaining, numToAdd =>
    if 0 < bytesRemaining then fitLoop obj (bytesRemaining - m.pktLen.toInt32) (numToAdd + 1)
    else (numToAdd, bytesRemaining)

/-- `for (i = start; i < stop; i++) rte_pktmbuf_free(obj[i])`; `none` when the
loop runs past the end of the batch. -/
def freeRange (obj : List Mbuf) (start stop : Nat) : Option (List Mbuf) :=
  if start < stop ∧ obj.length < stop then none else some ((obj.take stop).drop start)

/-- The variables of the loop that tries the remaining mbufs one by one. -/
structure Retry where
  ring : RteRing Mbuf
  bytesRemaining : Int32
  numAdded : Nat
  bytesAdded : UInt32
  freed : List Mbuf
  deriving DecidableEq

/-- One round of that loop. A result other than zero counts as stored, and
the mbuf is freed otherwise, as the source has it. -/
def Retry.attempt (s : Retry) (m : Mbuf) : Retry :=
  if m.pktLen.toInt32 ≤ s.bytesRemaining then
    let (code, ring) := rteRingSpEnqueue s.ring m
    if code ≠ 0 then
      { ring
        bytesRemaining := s.bytesRemaining - m.pktLen.toInt32
        numAdded := s.numAdded + 1
        bytesAdded := s.bytesAdded + m.pktLen
        freed := s.freed }
    else { s with ring, freed := s.freed ++ [m] }
  else { s with freed := s.freed ++ [m] }

def retryLoop : List Mbuf → Retry → Retry
  | [], s => s
  | m :: obj, s => if 60 ≤ s.bytesRemaining then retryLoop obj (s.attempt m) else s

/-- The result is `none` when the call reads past the end of the batch. -/
def bsringEnqueueBurst (bsr : BsRing) (obj : List Mbuf) : Option BsEnqueued := do
  let (counted, bytesRemaining) := fitLoop obj (bsr.capacity - bsr.bytesUsed).toInt32 0
  -- `num_to_add--` on a `uint32_t`: zero becomes the largest value
  let numToAdd := if bytesRemaining < 0 then (counted + (2 ^ 32 - 1)) % 2 ^ 32 else counted
  let (numAdded, ring) ← rteRingSpEnqueueBurst bsr.ring obj numToAdd
  let bytesAdded := totalSize (obj.take numAdded)
  let freed ← freeRange obj numAdded numToAdd
  let s : Retry :=
    { ring, bytesRemaining := (bsr.capacity - bsr.bytesUsed - bytesAdded).toInt32, numAdded, bytesAdded, freed }
  let s := if numAdded < obj.length then retryLoop (obj.drop numToAdd) s else s
  return { bsr := { bsr with ring := s.ring, bytesUsed := bsr.bytesUsed + s.bytesAdded }
           freed := s.freed
           ret := int32 s.numAdded }

def bsringEnqueue (bsr : BsRing) (obj : Mbuf) : BsEnqueued :=
  if bsr.bytesUsed + obj.pktLen < bsr.capacity then
    let (code, ring) := rteRingSpEnqueue bsr.ring obj
    if code = 0 then
      { bsr := { bsr with ring, bytesUsed := bsr.bytesUsed + obj.pktLen }, freed := [], ret := 1 }
    else { bsr := { bsr with ring }, freed := [obj], ret := 0 }
  else { bsr, freed := [obj], ret := 0 }

/-- `bsr->bytes_used -= obj[i]->pkt_len` for every mbuf that came out. -/
def BsRing.release (bsr : BsRing) (ring : RteRing Mbuf) (obj : List Mbuf) : BsRing :=
  { bsr with ring, bytesUsed := obj.foldl (fun used m => used - m.pktLen) bsr.bytesUsed }

def bsringDequeueBurst (bsr : BsRing) (n : Nat) : List Mbuf × BsRing :=
  let (obj, ring) := rteRingScDequeueBurst bsr.ring n
  (obj, bsr.release ring obj)

def bsringDequeueBulk (bsr : BsRing) (n : Nat) : List Mbuf × BsRing :=
  let (obj, ring) := rteRingScDequeueBulk bsr.ring n
  (obj, bsr.release ring obj)

def bsringDequeue (bsr : BsRing) : Option Mbuf × BsRing :=
  match rteRingScDequeue bsr.ring with
  | (0, some obj, ring) => (some obj, bsr.release ring [obj])
  | (_, _, ring) => (none, { bsr with ring })

/-- The calls that a program can make on a byte ring. -/
inductive BsCall where
  | enqueueBulk (obj : List Mbuf)
  | enqueueBurst (obj : List Mbuf)
  | enqueue (obj : Mbuf)
  | dequeueBulk (n : Nat)
  | dequeueBurst (n : Nat)
  | dequeue
  deriving DecidableEq

def BsRing.call (bsr : BsRing) : BsCall → Option BsRing
  | .enqueueBulk obj => some (bsringEnqueueBulk bsr obj).bsr
  | .enqueueBurst obj => (bsringEnqueueBurst bsr obj).map BsEnqueued.bsr
  | .enqueue obj => some (bsringEnqueue bsr obj).bsr
  | .dequeueBulk n => some (bsringDequeueBulk bsr n).2
  | .dequeueBurst n => some (bsringDequeueBurst bsr n).2
  | .dequeue => some (bsringDequeue bsr).2

end MoonGen
