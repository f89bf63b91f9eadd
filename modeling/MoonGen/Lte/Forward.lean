import Mathlib.Data.Rat.Defs
import MoonGen.Lte.Modes
import MoonGen.Ring.PsRing

namespace MoonGen

/-- The arguments of `forward` that both tasks share, in milliseconds, with
the number of clock cycles in a millisecond. -/
structure Settings where
  tscHzMs : Nat
  shortDRXCycleLength : Nat
  longDRXCycleLength : Nat
  activeTime : Nat
  continuousReceptionInactivityTimer : Nat
  shortDRXInactivityTimer : Nat
  longDRXInactivityTimer : Nat
  rccIdleCycleLength : Nat
  rccConnectionBuildDelay : Nat
  deriving DecidableEq

/-- The arguments of `forward` that belong to one direction. -/
structure Link where
  linkspeed : ℚ
  rate : ℚ
  latency : Nat
  xlatency : ℚ
  catchuprate : ℚ
  deriving DecidableEq

namespace Settings

variable (cfg : Settings)

def cycleLengthTscHzMs : Sleep → Nat
  | .drx .short => cfg.shortDRXCycleLength * cfg.tscHzMs
  | .drx .long => cfg.longDRXCycleLength * cfg.tscHzMs
  | .idle => cfg.rccIdleCycleLength * cfg.tscHzMs

def activeTimeTscHzMs : Nat := cfg.activeTime * cfg.tscHzMs

def inactiveContinuousReceptionCycleTime : Nat := cfg.continuousReceptionInactivityTimer * cfg.tscHzMs

def inactiveDRXCycleTime : Drx → Nat
  | .short => (cfg.shortDRXInactivityTimer + cfg.continuousReceptionInactivityTimer) * cfg.tscHzMs
  | .long => (cfg.longDRXInactivityTimer + cfg.shortDRXInactivityTimer +
      cfg.continuousReceptionInactivityTimer) * cfg.tscHzMs

def rccConnectionBuildDelayTscHzMs : Nat := cfg.rccConnectionBuildDelay * cfg.tscHzMs

end Settings

def concealedResendTime : Nat := 8

/-- A frame in a packet ring, with its arrival stamp in `udata64`. -/
structure Frame where
  addr : Nat
  pktLen : Nat
  udata64 : Nat
  deriving DecidableEq, Repr

/-- What a task learns from outside in one step: the clock, `mg.running()`, and
the random draws for a frame, of which `extraDelay` is in clock cycles. -/
structure Input where
  clock : Nat
  running : Bool
  extraDelay : Nat
  closses : Nat
  deriving DecidableEq, Repr

/-- Where a task stands in `forward`. Every constructor is one step, with at
most one access to the namespace, the ring or the clock. -/
inductive Pc where
  -- the stores before the loop
  | startIdle | startShort | startLong | startContinuous | startClock | startPacketTime | startFirst
  | head
  -- the delay from RRC_IDLE to RRC_CONNECTED
  | firstLoad | buildStart | buildClock | buildRunning | buildLoad | buildStore | buildEnd
  -- the block of continuous_reception
  | continuousLoad | recv | spin | spinRunning | send | sentActivity | sentClock | sentStore
  | quietActivity | quietClock | quietLoad
  -- the first and the second store of a mode change
  | clear (c : Change) | set (c : Change)
  -- the blocks of short_DRX, long_DRX and rcc_idle: the time to wait,
  | sleepLoad (m : Sleep) | sleepStart (m : Sleep)
  | waitFlag (d : Drx) | waitClock (m : Sleep) | waitCount (m : Sleep) | waitArrival (m : Sleep)
  | waitRunning (m : Sleep) | waitDone (m : Sleep)
  -- the time T_on,
  | onFlag (d : Drx) | onClock (m : Sleep) | onRunning (m : Sleep) | onCount (m : Sleep)
  -- behind the two stores of a wake-up,
  | wakeFirst | wakeActivity (d : Drx) | wakeClock (m : Sleep) | wakeStore (m : Sleep)
  -- and the inactivity timer
  | expireClock (d : Drx) | expireLoad (d : Drx)
  | returned
  deriving DecidableEq, Repr

/-- The local variables of `forward`. `tsc` is what the last call of
`get_tsc_cycles` returned. -/
structure Task where
  pc : Pc
  lastActivity : Nat
  catchupMode : Bool
  timeStuckInLoop : Int
  bufs : Option Frame
  closses : Nat
  sendTime : Int
  packetArrivalTime : Nat
  lcount : Nat
  tsc : Nat
  deriving DecidableEq, Repr

def Task.init : Task := ⟨.startIdle, 0, false, 0, none, 0, 0, 0, 0, 0⟩

/-- The start of a `while` loop in a sleeping block. Only the two DRX modes
test their flag there. -/
def Sleep.waitHead : Sleep → Pc
  | .drx d => .waitFlag d
  | .idle => .waitClock .idle

def Sleep.onHead : Sleep → Pc
  | .drx d => .onFlag d
  | .idle => .onClock .idle

/-- Behind the loop of T_on. -/
def Sleep.onEnd : Sleep → Pc
  | .drx d => .expireClock d
  | .idle => .head

/-- Behind the whole block. -/
def Drx.after : Drx → Pc
  | .short => .sleepLoad (.drx .long)
  | .long => .sleepLoad .idle

def Sleep.after : Sleep → Pc
  | .drx d => d.after
  | .idle => .head

def Change.after : Change → Pc
  | .quiet => .sleepLoad (.drx .short)
  | .wake (.drx d) => .wakeActivity d
  | .wake .idle => .wakeFirst
  | .expire d => d.after

namespace Task

variable (t : Task)

/-- What the statement at the program counter stores in the namespace. -/
def store (ns : Ns) : Ns :=
  match t.pc with
  | .startIdle => ns.set true .rccIdle
  | .startShort => ns.set false .shortDRX
  | .startLong => ns.set false .longDRX
  | .startContinuous => ns.set false .continuousReception
  | .startPacketTime => { ns with lastPacketTime := t.lastActivity }
  | .startFirst => { ns with firstRccConnected := false }
  | .buildStore => { ns with firstRccConnected := false }
  | .sentStore => { ns with lastPacketTime := t.tsc }
  | .clear c => ns.set false c.source
  | .set c => ns.set true c.target
  | .wakeFirst => { ns with firstRccConnected := true }
  | .wakeStore _ => { ns with lastPacketTime := t.tsc }
  | _ => ns

/-- What it takes out of the ring: at most one frame. -/
def take (ring : PsRing Frame) : PsRing Frame :=
  match t.pc with
  | .recv => (psringDequeueBurst ring 1).2
  | _ => ring

/-- A frame was received: draw its losses and compute when to send it. -/
def accept (cfg : Settings) (link : Link) (inp : Input) (buf : Frame) : Task :=
  let extraDelay := if 0 < link.xlatency then inp.extraDelay else 0
  { t with
    pc := .spin
    bufs := some buf
    closses := inp.closses
    catchupMode := t.catchupMode || (decide (0 < inp.closses) && decide (0 < link.catchuprate))
    sendTime := buf.udata64 +
      (((inp.closses * concealedResendTime + link.latency) * cfg.tscHzMs + extraDelay : Nat) + t.timeStuckInLoop)
    timeStuckInLoop := 0 }

/-- The local effect of the statement at the program counter. -/
def next (cfg : Settings) (link : Link) (inp : Input) (ns : Ns) (ring : PsRing Frame) : Task :=
  match t.pc with
  | .startIdle => { t with pc := .startShort }
  | .startShort => { t with pc := .startLong }
  | .startLong => { t with pc := .startContinuous }
  | .startContinuous => { t with pc := .startClock }
  | .startClock => { t with pc := .startPacketTime, tsc := inp.clock, lastActivity := inp.clock }
  | .startPacketTime => { t with pc := .startFirst }
  | .startFirst => { t with pc := .head }
  | .head => { t with pc := if inp.running then .firstLoad else .returned }
  | .firstLoad => { t with pc := if ns.firstRccConnected then .buildStart else .continuousLoad }
  | .buildStart => { t with pc := .buildClock, tsc := inp.clock, lastActivity := inp.clock }
  | .buildClock =>
    { t with
      pc := if inp.clock < t.lastActivity + cfg.rccConnectionBuildDelayTscHzMs then .buildRunning else .buildStore
      tsc := inp.clock }
  | .buildRunning => { t with pc := if inp.running then .buildLoad else .returned }
  | .buildLoad => { t with pc := if ns.firstRccConnected then .buildClock else .buildStore }
  | .buildStore =>
    { t with
      pc := .buildEnd
      timeStuckInLoop := if 0 < t.timeStuckInLoop then t.timeStuckInLoop + cfg.rccConnectionBuildDelayTscHzMs
        else t.timeStuckInLoop }
  | .buildEnd => { t with pc := .continuousLoad, tsc := inp.clock, lastActivity := inp.clock }
  | .continuousLoad => { t with pc := if ns.continuousReception then .recv else .sleepLoad (.drx .short) }
  | .recv =>
    match (psringDequeueBurst ring 1).1 with
    | [] => { t with pc := .quietActivity }
    | buf :: _ => t.accept cfg link inp buf
  | .spin =>
    if inp.clock < t.sendTime then { t with pc := .spinRunning, tsc := inp.clock, catchupMode := false }
    else { t with pc := .send, tsc := inp.clock }
  | .spinRunning => { t with pc := if inp.running then .spin else .returned }
  | .send => { t with pc := .sentActivity, bufs := none }
  | .sentActivity => { t with pc := .sentClock, tsc := inp.clock, lastActivity := inp.clock }
  | .sentClock => { t with pc := .sentStore, tsc := inp.clock }
  | .sentStore => { t with pc := .quietActivity }
  | .quietActivity =>
    { t with
      pc := if t.lastActivity + cfg.inactiveContinuousReceptionCycleTime < inp.clock then .quietClock
        else .sleepLoad (.drx .short)
      tsc := inp.clock }
  | .quietClock => { t with pc := .quietLoad, tsc := inp.clock }
  | .quietLoad =>
    { t with
      pc := if ns.lastPacketTime + cfg.inactiveContinuousReceptionCycleTime < t.tsc then .clear .quiet
        else .sleepLoad (.drx .short) }
  | .clear c => { t with pc := .set c }
  | .set c => { t with pc := c.after }
  | .sleepLoad m => { t with pc := if ns.get m.mode then .sleepStart m else m.after }
  | .sleepStart m =>
    { t with
      pc := m.waitHead
      tsc := inp.clock
      lastActivity := inp.clock
      packetArrivalTime := 0
      lcount := 0
      timeStuckInLoop := 0 }
  | .waitFlag d => { t with pc := if ns.get d.mode then .waitClock (.drx d) else .waitDone (.drx d) }
  | .waitClock m =>
    { t with
      pc := if inp.clock < t.lastActivity + cfg.cycleLengthTscHzMs m - cfg.activeTimeTscHzMs then .waitCount m
        else .waitDone m
      tsc := inp.clock }
  | .waitCount m =>
    { t with
      pc := if 0 < psringCount ring ∧ t.packetArrivalTime = 0 then .waitArrival m else .waitRunning m
      lcount := psringCount ring }
  | .waitArrival m => { t with pc := .waitRunning m, tsc := inp.clock, packetArrivalTime := inp.clock }
  | .waitRunning m => { t with pc := if inp.running then m.waitHead else .returned }
  | .waitDone m =>
    { t with
      pc := m.onHead
      tsc := inp.clock
      lastActivity := inp.clock
      timeStuckInLoop := if 0 < t.lcount then inp.clock - t.packetArrivalTime else t.timeStuckInLoop }
  | .onFlag d => { t with pc := if ns.get d.mode then .onClock (.drx d) else .expireClock d }
  | .onClock m =>
    { t with
      pc := if inp.clock < t.lastActivity + cfg.activeTimeTscHzMs then .onRunning m else m.onEnd
      tsc := inp.clock }
  | .onRunning m => { t with pc := if inp.running then .onCount m else .returned }
  | .onCount m => { t with pc := if 0 < psringCount ring then .clear (.wake m) else m.onHead }
  | .wakeFirst => { t with pc := .wakeClock .idle }
  | .wakeActivity d => { t with pc := .wakeClock (.drx d), tsc := inp.clock, lastActivity := inp.clock }
  | .wakeClock m => { t with pc := .wakeStore m, tsc := inp.clock }
  | .wakeStore m => { t with pc := m.onEnd }
  | .expireClock d => { t with pc := .expireLoad d, tsc := inp.clock }
  | .expireLoad d =>
    { t with pc := if ns.lastPacketTime + cfg.inactiveDRXCycleTime d < t.tsc then .clear (.expire d) else d.after }
  | .returned => t

end Task

/-- A frame in the hands of `sendWithDelayLoss`: what was set as its delay, the
losses drawn for it, and the clock. -/
structure Sent where
  frame : Frame
  delay : ℚ
  closses : Nat
  clock : Nat
  deriving DecidableEq

/-- The frame that the statement at the program counter hands over, if any. -/
def Task.sends (t : Task) (link : Link) (clock : Nat) : Option Sent :=
  match t.pc with
  | .send => t.bufs.map fun buf =>
    let pktSize : ℚ := ((buf.pktLen + 24 : Nat) : ℚ)
    { frame := buf
      delay := pktSize * (link.linkspeed / (if t.catchupMode then link.catchuprate else link.rate) - 1)
      closses := t.closses
      clock }
  | _ => none

end MoonGen
