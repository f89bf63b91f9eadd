import MoonGen.Lte.Forward

namespace MoonGen

/-- Where a task stands as far as the mode flags are concerned: in its start-up
with some flags still to clear, between the first load of an iteration and the
end of the block of continuous reception, before one of the two stores of a
mode change, behind a wake-up from idle, or asleep. -/
inductive Phase where
  | fresh
  | start (pending : List Mode)
  | head
  | load
  | connect
  | clear (c : Change)
  | set (c : Change)
  | first
  | sleep
  | returned
  deriving DecidableEq

namespace Phase

/-- The flags that the start-up of a task has yet to clear, once it has made
the link idle. -/
def pending : Phase → List Mode
  | start modes => modes
  | _ => []

/-- The mode flag that a phase ends by storing, and the value. -/
def write : Phase → Option (Mode × Bool)
  | fresh => some (.rccIdle, true)
  | start (m :: _) => some (m, false)
  | clear c => some (c.source, false)
  | set c => some (c.target, true)
  | _ => none

inductive Step : Phase → Phase → Prop
  | begin : Step fresh (start [.shortDRX, .longDRX, .continuousReception])
  | starts {m rest} : Step (start (m :: rest)) (start rest)
  | starting : Step (start []) (start [])
  | started : Step (start []) head
  | iterate : Step head load
  | load : Step load connect
  | connect : Step connect connect
  | quiet : Step connect (clear .quiet)
  | lull : Step connect sleep
  | clear {c} : Step (clear c) (set c)
  | leave : Step (set (.wake .idle)) first
  | set {c} : c ≠ .wake .idle → Step (set c) sleep
  | first : Step first sleep
  | sleep : Step sleep sleep
  | wake {m} : Step sleep (clear (.wake m))
  | expire {d} : Step sleep (clear (.expire d))
  | again : Step sleep head
  | stopHead : Step head returned
  | stopConnect : Step connect returned
  | stopSleep : Step sleep returned
  | stay : Step returned returned

theorem Step.set_of_clear {c : Change} {q : Phase} (move : (Phase.clear c).Step q) : q = .set c := by
  cases move
  rfl

end Phase

def Pc.phase : Pc → Phase
  | .startIdle => .fresh
  | .startShort => .start [.shortDRX, .longDRX, .continuousReception]
  | .startLong => .start [.longDRX, .continuousReception]
  | .startContinuous => .start [.continuousReception]
  | .startClock | .startPacketTime | .startFirst => .start []
  | .head => .head
  | .firstLoad => .load
  | .clear c => .clear c
  | .set c => .set c
  | .wakeFirst => .first
  | .returned => .returned
  | .sleepLoad _ | .sleepStart _ | .waitFlag _ | .waitClock _ | .waitCount _ | .waitArrival _ | .waitRunning _
  | .waitDone _ | .onFlag _ | .onClock _ | .onRunning _ | .onCount _ | .wakeActivity _ | .wakeClock _ | .wakeStore _
  | .expireClock _ | .expireLoad _ => .sleep
  | _ => .connect

@[simp] theorem Sleep.waitHead_phase (m : Sleep) : m.waitHead.phase = .sleep := by cases m <;> rfl

@[simp] theorem Sleep.onHead_phase (m : Sleep) : m.onHead.phase = .sleep := by cases m <;> rfl

theorem Sleep.onEnd_phase (m : Sleep) : Phase.sleep.Step m.onEnd.phase := by
  cases m with
  | drx d => exact .sleep
  | idle => exact .again

@[simp] theorem Drx.after_phase (d : Drx) : d.after.phase = .sleep := by cases d <;> rfl

theorem Sleep.after_phase (m : Sleep) : Phase.sleep.Step m.after.phase := by
  cases m with
  | drx d => exact d.after_phase ▸ .sleep
  | idle => exact .again

theorem Change.after_phase (c : Change) : (Phase.set c).Step c.after.phase := by
  cases c with
  | quiet => exact .set (by decide)
  | wake m =>
    cases m with
    | drx d => exact .set (by simp)
    | idle => exact .leave
  | expire d => exact d.after_phase ▸ .set (by simp)

/-- Every step of a task is one of the steps between phases. -/
theorem Task.next_phase (t : Task) (cfg : Settings) (link : Link) (inp : Input) (ns : Ns) (ring : PsRing Frame) :
    t.pc.phase.Step (t.next cfg link inp ns ring).pc.phase := by
  unfold Task.next
  cases pc : t.pc with
  | startIdle => exact .begin
  | startShort | startLong | startContinuous => exact .starts
  | startClock | startPacketTime => exact .starting
  | startFirst => exact .started
  | head => dsimp only; split; exacts [.iterate, .stopHead]
  | firstLoad => dsimp only; split <;> exact .load
  | buildStart | buildStore | buildEnd | send | sentActivity | sentClock | sentStore | quietClock => exact .connect
  | buildClock | buildLoad => dsimp only; split <;> exact .connect
  | buildRunning | spinRunning => dsimp only; split; exacts [.connect, .stopConnect]
  | continuousLoad => dsimp only; split; exacts [.connect, .lull]
  | recv => dsimp only; split <;> exact .connect
  | spin => dsimp only; split <;> exact .connect
  | quietActivity => dsimp only; split; exacts [.connect, .lull]
  | quietLoad => dsimp only; split; exacts [.quiet, .lull]
  | clear c => exact .clear
  | set c => exact c.after_phase
  | sleepLoad m => dsimp only; split; exacts [.sleep, m.after_phase]
  | sleepStart m => exact m.waitHead_phase ▸ .sleep
  | waitFlag d | waitClock m | waitCount m => dsimp only; split <;> exact .sleep
  | waitArrival m | wakeActivity d | wakeClock m | expireClock d => exact .sleep
  | waitRunning m => dsimp only; split; exacts [m.waitHead_phase ▸ .sleep, .stopSleep]
  | waitDone m => exact m.onHead_phase ▸ .sleep
  | onFlag d => dsimp only; split <;> exact .sleep
  | onClock m => dsimp only; split; exacts [.sleep, m.onEnd_phase]
  | onRunning m => dsimp only; split; exacts [.sleep, .stopSleep]
  | onCount m => dsimp only; split; exacts [.wake, m.onHead_phase ▸ .sleep]
  | wakeFirst => exact .first
  | wakeStore m => exact m.onEnd_phase
  | expireLoad d => dsimp only; split; exacts [.expire, d.after_phase ▸ .sleep]
  | returned => rw [pc]; exact .stay

theorem Task.store_get_of_none {t : Task} (keeps : t.pc.phase.write = none) (ns : Ns) (k : Mode) :
    (t.store ns).get k = ns.get k := by
  unfold Task.store
  cases pc : t.pc with
  | startIdle | startShort | startLong | startContinuous | clear | set => simp [pc, Pc.phase, Phase.write] at keeps
  | startPacketTime | sentStore | wakeStore => exact Ns.get_with_lastPacketTime ..
  | startFirst | buildStore | wakeFirst => exact Ns.get_with_firstRccConnected ..
  | _ => rfl

theorem Task.store_get_of_some {t : Task} {m : Mode} {value : Bool} (stores : t.pc.phase.write = some (m, value))
    (ns : Ns) (k : Mode) : (t.store ns).get k = if k = m then value else ns.get k := by
  unfold Task.store
  cases pc : t.pc with
  | startIdle | startShort | startLong | startContinuous | clear | set =>
    simp only [pc, Pc.phase, Phase.write, Option.some.injEq, Prod.mk.injEq] at stores
    obtain ⟨rfl, rfl⟩ := stores
    exact Ns.get_set ..
  | _ => simp [pc, Pc.phase, Phase.write] at stores

end MoonGen
