import MoonGen.Lib.Double
import MoonGen.Lib.Machine
import MoonGen.Ring.Mbuf
import MoonGen.Ring.RteRing

namespace MoonGen

/-- A packet buffer with its user data, where `main_loop` finds the wanted gap. -/
structure PacedMbuf extends Mbuf where
  udata64 : UInt64
  deriving DecidableEq

/-- `batch_size`. -/
def limiterBatchSize : Nat := 64

/-- `limiter_control`, which the limiter thread shares with its user. -/
structure LimiterControl where
  count : UInt64
  stop : UInt64
  deriving DecidableEq

def LimiterControl.countPackets (ctl : LimiterControl) (n : Nat) : LimiterControl :=
  { ctl with count := ctl.count + .ofNat n }

def ringEnqueue (ring : RteRing PacedMbuf) (obj : List PacedMbuf) : Nat × RteRing PacedMbuf :=
  rteRingSpEnqueueBulk ring obj

def ringDequeue (ring : RteRing PacedMbuf) (n : Nat) : List PacedMbuf × RteRing PacedMbuf :=
  rteRingScDequeueBulk ring n

/-- The rule of 10 ms: `next_send` becomes the current time when that is too far
ahead. The difference is signed, and outside of `int64_t` it is undefined. -/
def restartRateControl (tscHz cur nextSend : UInt64) : Option UInt64 :=
  let late := cur.toInt64.toInt - nextSend.toInt64.toInt
  if -2 ^ 63 ≤ late ∧ late < 2 ^ 63 then
    some (if tscHz.toInt64.toInt.tdiv 100 < late then cur else nextSend)
  else none

/-- What tells the three loops apart. `none` stands for undefined behaviour. -/
structure Limiter (D : Type) where
  /-- Whether an empty-handed dequeue is tried again with half the batch. -/
  halving : Bool
  /-- `next_send` before the loop, from the clock. -/
  first : UInt64 → UInt64
  /-- `next_send` after a dequeue, from the clock and its old value. -/
  restart : UInt64 → UInt64 → Option UInt64
  /-- `next_send` as a packet waits for it. -/
  before : PacedMbuf → UInt64 → Option UInt64
  /-- `next_send` behind the wait of a packet, with the draw of a delay. -/
  after : PacedMbuf → D → UInt64 → UInt64

section
variable {D : Type} [Double D]
open Double

/-- `main_loop`: the gap in front of a packet comes from its user data. -/
def mainLoop (tscHz : UInt64) (linkSpeed : UInt32) : Limiter D where
  halving := true
  first cur := cur
  restart _ nextSend := some nextSend
  before buf nextSend :=
    let linkBps : D := ofUInt64 linkSpeed.toUInt64 * ofUInt64 1000000
    let idCycles := toUInt64 (ofUInt64 (buf.udata64 * 8) / linkBps * ofUInt64 tscHz)
    some (nextSend + idCycles)
  after _ _ nextSend := nextSend

/-- The time on the wire in cycles, which `main_loop_poisson` computes. -/
def pktTime (D : Type) [Double D] (tscHz : UInt64) (linkSpeed pktLen : UInt32) : UInt64 :=
  let ns := ((pktLen + 24) * 8 / (linkSpeed / 1000)).toUInt64
  toUInt64 (ofUInt64 ns * (ofUInt64 tscHz / ofUInt64 1000000000) : D)

/-- `main_loop_poisson`: the gap behind a packet is the time on the wire and an
exponential draw. A link below 1000 Mbit/s divides by zero. -/
def mainLoopPoisson (tscHz : UInt64) (target linkSpeed : UInt32) : Limiter D where
  halving := false
  first _ := 0
  restart := restartRateControl tscHz
  before _ nextSend := if linkSpeed / 1000 = 0 then none else some nextSend
  after buf draw nextSend :=
    let pktTime := pktTime D tscHz linkSpeed buf.pktLen
    let avg := toInt64 (ofUInt64 tscHz / (ofUInt64 1000000000 / ofUInt64 target.toUInt64) - ofUInt64 pktTime : D)
    let delay := if avg ≤ 0 then ofUInt64 0 else draw
    toUInt64 (ofUInt64 nextSend + (ofUInt64 pktTime + delay))

/-- The loop of `main_loop_cbr` for a gap that is already in cycles. -/
def cbrLimiter (tscHz idCycles : UInt64) : Limiter D where
  halving := false
  first _ := 0
  restart := restartRateControl tscHz
  before _ nextSend := some nextSend
  after _ _ nextSend := nextSend + idCycles

def mainLoopCbr (tscHz : UInt64) (target : UInt32) : Limiter D :=
  cbrLimiter tscHz
    (toUInt64 (ofUInt64 target.toUInt64 / (ofUInt64 1000000000 / ofUInt64 tscHz) : D))

/-- The `mode` of a software rate limiter. -/
inductive LimiterMode where
  | cbr
  | poisson
  | custom

/-- `__MG_RATE_LIMITER_MAIN`: the loop that a mode runs. -/
def mgRateLimiterMain (mode : LimiterMode) (tscHz : UInt64) (delay speed : UInt32) : Limiter D :=
  match mode with
  | .cbr => mainLoopCbr tscHz delay
  | .poisson => mainLoopPoisson tscHz delay speed
  | .custom => mainLoop tscHz speed

end

namespace Limiter

/-- Where a loop returns: at its head, after an empty-handed dequeue, or with a
packet that the device does not take. -/
inductive Return where
  | quit
  | idle
  | refused
  deriving DecidableEq

/-- The point a loop stands at, with what it holds of a batch: the number `n` of
packets taken from the ring and those that are not sent yet. -/
inductive Pc where
  | head
  | dequeue (curBatchSize : Nat)
  | batch (bufs : List PacedMbuf)
  | packet (n : Nat) (rest : List PacedMbuf)
  | spin (n : Nat) (buf : PacedMbuf) (rest : List PacedMbuf)
  | transmit (n : Nat) (buf : PacedMbuf) (rest : List PacedMbuf)
  | refused (n : Nat) (buf : PacedMbuf) (rest : List PacedMbuf)
  | count (n : Nat)
  | idle
  | returned (cause : Return)
  | undefined
  deriving DecidableEq

/-- The limiter thread, what it shares with the producer, and two records: what
the producer stored in the ring and what the device took. -/
structure State where
  ring : RteRing PacedMbuf
  ctl : LimiterControl
  isRunning : Bool
  clock : UInt64
  pc : Pc
  nextSend : UInt64
  enqueued : List PacedMbuf
  sent : List PacedMbuf
  deriving DecidableEq

def State.running (s : State) : Bool := s.isRunning && s.ctl.stop == 0

variable {D : Type}

/-- One step of the limiter thread, with at most one access to what is shared.
The device answers with `accepted`, and `draw` is the next random delay. -/
def run (l : Limiter D) (accepted : Bool) (draw : D) (s : State) : State :=
  match s.pc with
  | .head => { s with pc := if s.isRunning then .dequeue limiterBatchSize else .returned .quit }
  | .dequeue curBatchSize =>
    match ringDequeue s.ring curBatchSize with
    | ([], ring) =>
      { s with ring, pc := if l.halving && 1 < curBatchSize then .dequeue (curBatchSize / 2) else .batch [] }
    | (buf :: bufs, ring) => { s with ring, pc := .batch (buf :: bufs) }
  | .batch bufs =>
    match l.restart s.clock s.nextSend with
    | none => { s with pc := .undefined }
    | some nextSend => { s with nextSend, pc := if bufs = [] then .idle else .packet bufs.length bufs }
  | .packet n [] => { s with pc := .count n }
  | .packet n (buf :: rest) =>
    match l.before buf s.nextSend with
    | none => { s with pc := .undefined }
    | some nextSend => { s with nextSend, pc := .spin n buf rest }
  | .spin n buf rest =>
    if s.clock < s.nextSend then s
    else { s with nextSend := l.after buf draw s.nextSend, pc := .transmit n buf rest }
  | .transmit n buf rest =>
    if accepted then { s with sent := s.sent ++ [buf], pc := .packet n rest }
    else { s with pc := .refused n buf rest }
  | .refused n buf rest => { s with pc := if s.running then .transmit n buf rest else .returned .refused }
  | .count n => { s with ctl := s.ctl.countPackets n, pc := .head }
  | .idle => { s with pc := if s.running then .head else .returned .idle }
  | .returned _ | .undefined => s

/-- A step of the limiter thread or of what surrounds it. -/
inductive Act (D : Type) where
  | run (accepted : Bool) (draw : D)
  | enqueue (bufs : List PacedMbuf)
  | stop
  | quit
  | tick (now : UInt64)

def step (l : Limiter D) (s : State) : Act D → State
  | .run accepted draw => l.run accepted draw s
  | .enqueue bufs =>
    match ringEnqueue s.ring bufs with
    | (0, _) => s
    | (_ + 1, ring) => { s with ring, enqueued := s.enqueued ++ bufs }
  | .stop => { s with ctl := { s.ctl with stop := 1 } }
  | .quit => { s with isRunning := false }
  | .tick now => { s with clock := now }

/-- A stopped rate limiter must not be used further. -/
def Able (s : State) : Act D → Prop
  | .enqueue _ | .stop => s.ctl.stop = 0
  | .run _ _ | .quit | .tick _ => True

instance (s : State) : (a : Act D) → Decidable (Able s a)
  | .enqueue _ | .stop => inferInstanceAs (Decidable (s.ctl.stop = 0))
  | .run _ _ | .quit | .tick _ => inferInstanceAs (Decidable True)

structure Started (l : Limiter D) (s : State) : Prop where
  ring : s.ring.items = []
  ctl : s.ctl = ⟨0, 0⟩
  pc : s.pc = .head
  nextSend : s.nextSend = l.first s.clock
  enqueued : s.enqueued = []
  sent : s.sent = []

def machine (l : Limiter D) : Machine State (Act D) where
  start := l.Started
  enabled := Able
  next := l.step

instance (l : Limiter D) (s : State) (a : Act D) : Decidable (l.machine.enabled s a) :=
  inferInstanceAs (Decidable (Able s a))

end Limiter

end MoonGen
