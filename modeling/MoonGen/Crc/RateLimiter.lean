import Mathlib.Algebra.GroupWithZero.Nat
import Mathlib.Data.Rat.Defs
import MoonGen.Lib.BatchBuffer

namespace MoonGen

/-- A packet with a broken checksum that only fills time on the wire. -/
structure Filler where
  dataLen : Nat
  pktLen : Nat
  deriving DecidableEq, Repr

/-- What one call to `get_delay_pkt_bad_crc` leaves behind: the packet or
`NULL`, `*rem_delay`, and the thread's `leftover_delay`. -/
structure DelayPkt where
  pkt : Option Filler
  remDelay : Nat
  leftoverDelay : Nat
  deriving DecidableEq

def getDelayPktBadCrc (leftoverDelay remDelay minPktSize : Nat) : DelayPkt :=
  let delay := (remDelay + leftoverDelay) % 2 ^ 64
  if delay < minPktSize then
    { pkt := none, remDelay := 0, leftoverDelay := delay }
  else
    let delay := if delay < 1538 then delay else if delay > 2000 then 1538 else delay / 2
    { pkt := some
        { dataLen := (delay + (2 ^ 16 - 20)) % 2 ^ 16
          pktLen := (delay + (2 ^ 32 - 20)) % 2 ^ 32 }
      remDelay := if delay > remDelay then 0 else remDelay - delay
      leftoverDelay := 0 }

/-- A packet of the load, with the desired gap in front of it in `udata64`. -/
structure LoadPkt where
  addr : Nat
  udata64 : Nat
  deriving DecidableEq, Repr

inductive TxPkt where
  | filler (pkt : Filler)
  | load (pkt : LoadPkt)
  deriving DecidableEq

def bufSize : Nat := 128

/-- The variables of a send call, with the thread's `leftover_delay`. -/
structure Sender where
  buf : BatchBuffer TxPkt
  leftoverDelay : Nat
  numBadPkts : Nat
  numBadBytes : Nat
  freed : List LoadPkt
  deriving DecidableEq

def Sender.write (s : Sender) (pkt : TxPkt) : Option Sender :=
  (s.buf.write bufSize pkt).map fun buf => { s with buf }

def Sender.flushWhen (s : Sender) (now : Bool) : Sender := { s with buf := s.buf.flushWhen now }

def Sender.countBad (s : Sender) (numBytes : Nat) : Sender :=
  { s with
    numBadPkts := (s.numBadPkts + 1) % 2 ^ 32
    numBadBytes := (s.numBadBytes + numBytes) % 2 ^ 32 }

/-- `while (delay > 0)`, with the delay itself as fuel: a round that did not
lower it would end in `none`. The two send functions count a different number
of bytes beside the packet length. -/
def delayLoop (overhead minPktSize : Nat) : Nat → Nat → Sender → Option Sender
  | 0, delay, s => if 0 < delay then none else some s
  | fuel + 1, delay, s =>
    if 0 < delay then do
      let d := getDelayPktBadCrc s.leftoverDelay delay minPktSize
      let s := { s with leftoverDelay := d.leftoverDelay }
      let s ← match d.pkt with
        | none => some s
        | some pkt => (s.countBad (pkt.pktLen + overhead)).write (.filler pkt)
      delayLoop overhead minPktSize fuel d.remDelay (s.flushWhen (bufSize ≤ s.buf.pending.length))
    else some s

/-- The loop over the load in `moongen_send_all_packets_with_delay_bad_crc`. -/
def sendLoop (minPktSize numPkts : Nat) : Nat → List LoadPkt → Sender → Option Sender
  | _, [], s => some s
  | i, pkt :: loadPkts, s => do
    let delay := pkt.udata64 % 2 ^ 32
    let s ← delayLoop 24 minPktSize delay delay s
    let s ← s.write (.load pkt)
    sendLoop minPktSize numPkts (i + 1) loadPkts
      (s.flushWhen (bufSize ≤ s.buf.pending.length || i + 1 == numPkts))

def randMax : Nat := 2147483647

/-- `(double)rand()/RAND_MAX >= loss_rate`. -/
def keepsPkt (lossRate : ℚ) (rand : Nat) : Bool := lossRate ≤ (rand : ℚ) / (randMax : ℚ)

/-- The loop of the variant with losses; `rand i` is the number drawn for the
packet at index `i`. -/
def sendLossLoop (lossRate : ℚ) (rand : Nat → Nat) (minPktSize numPkts : Nat) :
    Nat → List LoadPkt → Sender → Option Sender
  | _, [], s => some s
  | i, pkt :: loadPkts, s => do
    let delay := if pkt.udata64 > 0x0fffffff then 0 else pkt.udata64 % 2 ^ 32
    let s ← delayLoop 0 minPktSize delay delay s
    let s ← if keepsPkt lossRate (rand i) then s.write (.load pkt) else some { s with freed := s.freed ++ [pkt] }
    sendLossLoop lossRate rand minPktSize numPkts (i + 1) loadPkts
      (s.flushWhen (bufSize ≤ s.buf.pending.length || i + 1 == numPkts))

def Sender.start (leftoverDelay : Nat) : Sender :=
  { buf := .empty, leftoverDelay, numBadPkts := 0, numBadBytes := 0, freed := [] }

/-- The state that outlives a call: the thread's `leftover_delay` and the
counters of the port. -/
structure CrcState where
  leftoverDelay : Nat
  badPktsSent : Nat
  badBytesSent : Nat
  deriving DecidableEq

def CrcState.account (st : CrcState) (s : Sender) : CrcState :=
  { leftoverDelay := s.leftoverDelay
    badPktsSent := (st.badPktsSent + s.numBadPkts) % 2 ^ 64
    badBytesSent := (st.badBytesSent + s.numBadBytes) % 2 ^ 64 }

/-- The result is `none` when an index into the send buffer is out of range or
a delay loop does not end. -/
def moongenSendAllPacketsWithDelayBadCrc (st : CrcState) (loadPkts : List LoadPkt) (minPktSize : Nat) :
    Option (Sender × CrcState) :=
  (sendLoop minPktSize loadPkts.length 0 loadPkts (.start st.leftoverDelay)).map fun s => (s, st.account s)

def moongenSendAllPacketsWithDelayBadCrcLoss (st : CrcState) (loadPkts : List LoadPkt) (minPktSize : Nat)
    (lossRate : ℚ) (rand : Nat → Nat) : Option (Sender × CrcState) :=
  (sendLossLoop lossRate rand minPktSize loadPkts.length 0 loadPkts (.start st.leftoverDelay)).map
    fun s => (s, st.account s)

/-- `dpdk_send_all_packets`: each call to `rte_eth_tx_burst` takes some of the
packets that are left, as the answers of the NIC say. The result is `none`
while the function still waits for the NIC. -/
def dpdkSendAllPackets {α : Type} (pkts : List α) : List Nat → Nat → List α → Option (List α)
  | [], _, _ => none
  | answer :: answers, sent, wire =>
    let taken := min answer (pkts.length - sent)
    let wire := wire ++ (pkts.drop sent).take taken
    let sent := sent + taken
    if sent ≥ pkts.length then some wire else dpdkSendAllPackets pkts answers sent wire

end MoonGen
