import MoonGen.Lte.System

namespace MoonGen

/-- One forward task with its ring, the frames that were put into the ring so
far and those that were handed to `sendWithDelayLoss`. -/
structure Forwarding where
  task : Task
  ring : PsRing Frame
  now : Nat
  put : List Frame
  sent : List Sent

/-- A step of the task, which may find anything in the namespace, or a batch
from the receive task. -/
inductive ForwardAction where
  | step (ns : Ns) (inp : Input)
  | receive (bufs : List Frame)

namespace Forwarding

def Able (s : Forwarding) : ForwardAction → Prop
  | .step _ inp => s.now ≤ inp.clock
  | .receive bufs => (psringEnqueueBurst s.ring bufs).isSome

instance (s : Forwarding) : (a : ForwardAction) → Decidable (s.Able a)
  | .step _ inp => inferInstanceAs (Decidable (s.now ≤ inp.clock))
  | .receive bufs => inferInstanceAs (Decidable (psringEnqueueBurst s.ring bufs).isSome)

def act (cfg : Settings) (link : Link) (s : Forwarding) : ForwardAction → Forwarding
  | .step ns inp =>
    { task := s.task.next cfg link inp ns s.ring
      ring := s.task.take s.ring
      now := inp.clock
      put := s.put
      sent := s.sent ++ (s.task.sends link inp.clock).toList }
  | .receive bufs =>
    match psringEnqueueBurst s.ring bufs with
    | some e => { s with ring := e.psr, put := s.put ++ bufs.take e.ret.toNat }
    | none => s

end Forwarding

/-- A forward task from its start on, with what is in its ring by then. -/
def forward (cfg : Settings) (link : Link) : Machine Forwarding ForwardAction where
  start s := s.task = .init ∧ s.put = s.ring.ring.items ∧ s.sent = []
  enabled := Forwarding.Able
  next := Forwarding.act cfg link

/-- The earliest time to send a frame: its arrival, the latency and the resend
time of its concealed losses. -/
def Link.due (link : Link) (cfg : Settings) (buf : Frame) (closses : Nat) : Nat :=
  buf.udata64 + (link.latency + 8 * closses) * cfg.tscHzMs

namespace Task

variable {t : Task} {cfg : Settings} {link : Link} {inp : Input} {ns : Ns} {ring : PsRing Frame}

theorem next_packetArrivalTime (past : t.packetArrivalTime ≤ inp.clock) :
    (t.next cfg link inp ns ring).packetArrivalTime ≤ inp.clock := by
  unfold Task.next
  cases pc : t.pc with
  | sleepStart m => exact Nat.zero_le _
  | waitArrival m => exact le_rfl
  | recv | spin => dsimp only; split <;> exact past
  | _ => exact past

theorem next_timeStuckInLoop (past : t.packetArrivalTime ≤ inp.clock) (stuck : 0 ≤ t.timeStuckInLoop) :
    0 ≤ (t.next cfg link inp ns ring).timeStuckInLoop := by
  unfold Task.next
  cases pc : t.pc with
  | buildStore => dsimp only; split <;> omega
  | recv =>
    dsimp only
    split
    · exact stuck
    · exact le_rfl
  | spin => dsimp only; split <;> exact stuck
  | sleepStart m => exact le_rfl
  | waitDone m => dsimp only; split <;> omega
  | _ => exact stuck

/-- A frame is held exactly on the way from the ring to the hand-over. -/
def Holding (t : Task) (cfg : Settings) (link : Link) (now : Nat) : Prop :=
  match t.pc with
  | .spin | .spinRunning => ∃ buf, t.bufs = some buf ∧ (link.due cfg buf t.closses : Int) ≤ t.sendTime
  | .send => ∃ buf, t.bufs = some buf ∧ link.due cfg buf t.closses ≤ now
  | .returned => True
  | _ => t.bufs = none

theorem accept_holding (stuck : 0 ≤ t.timeStuckInLoop) (buf : Frame) (now : Nat) :
    (t.accept cfg link inp buf).Holding cfg link now := by
  refine ⟨buf, rfl, ?_⟩
  have losses : inp.closses * concealedResendTime + link.latency = link.latency + 8 * inp.closses := by
    unfold concealedResendTime
    omega
  simp only [Task.accept, Link.due, losses]
  omega

theorem Holding.next {now : Nat} (holding : t.Holding cfg link now) (stuck : 0 ≤ t.timeStuckInLoop) :
    (t.next cfg link inp ns ring).Holding cfg link inp.clock := by
  unfold Task.next
  unfold Task.Holding at holding
  generalize pc : t.pc = p at holding ⊢
  cases p with
  | recv =>
    dsimp only
    split
    · exact holding
    · exact accept_holding stuck ..
  | spin =>
    obtain ⟨buf, held, due⟩ := holding
    dsimp only
    split
    · exact ⟨buf, held, due⟩
    · have reached : link.due cfg buf t.closses ≤ inp.clock := by omega
      exact ⟨buf, held, reached⟩
  | spinRunning =>
    dsimp only
    split
    · exact holding
    · trivial
  | send => rfl
  | returned => simp [Task.Holding, pc]
  | head | buildRunning | onRunning m =>
    dsimp only
    split
    · exact holding
    · trivial
  | firstLoad | buildClock | buildLoad | continuousLoad | quietActivity | quietLoad | waitFlag d | waitClock m
  | waitCount m | onFlag d =>
    dsimp only
    split <;> exact holding
  | set c =>
    rcases c with _ | ⟨_ | _⟩ | ⟨_ | _⟩ <;> exact holding
  | sleepStart m | waitDone m | wakeStore m =>
    cases m <;> exact holding
  | sleepLoad m =>
    dsimp only
    split
    · exact holding
    · rcases m with ⟨_ | _⟩ | _ <;> exact holding
  | waitRunning m =>
    dsimp only
    split
    · cases m <;> exact holding
    · trivial
  | onClock m | onCount m =>
    dsimp only
    split
    · exact holding
    · cases m <;> exact holding
  | expireLoad d =>
    dsimp only
    split
    · exact holding
    · cases d <;> exact holding
  | _ => exact holding

/-- A step moves frames on from the ring through the task to the hand-over,
without changing their order. -/
theorem frames_next {now : Nat} (holding : t.Holding cfg link now) :
    (t.sends link inp.clock).toList.map Sent.frame ++
        ((t.next cfg link inp ns ring).bufs.toList ++ (t.take ring).ring.items) =
      t.bufs.toList ++ ring.ring.items := by
  unfold Task.sends Task.take Task.next
  cases pc : t.pc with
  | recv =>
    have free : t.bufs = none := by simpa only [Task.Holding, pc] using holding
    have batch : (psringDequeueBurst ring 1).1 = ring.ring.items.take 1 := rfl
    have rest : (psringDequeueBurst ring 1).2.ring.items = ring.ring.items.drop 1 := rfl
    cases items : ring.ring.items with
    | nil => simp [batch, rest, items]
    | cons buf others => simp [batch, rest, items, free, Task.accept]
  | send =>
    obtain ⟨buf, held, _⟩ : ∃ buf, t.bufs = some buf ∧ link.due cfg buf t.closses ≤ now := by
      simpa only [Task.Holding, pc] using holding
    simp [held]
  | spin => dsimp only; split <;> rfl
  | _ => rfl

/-- The statement that hands over a frame does so in time. -/
theorem sends_due {now : Nat} {sent : Sent} (holding : t.Holding cfg link now)
    (sends : t.sends link inp.clock = some sent) (clock : now ≤ inp.clock) :
    link.due cfg sent.frame sent.closses ≤ sent.clock := by
  unfold Task.sends at sends
  cases pc : t.pc with
  | send =>
    obtain ⟨buf, held, due⟩ : ∃ buf, t.bufs = some buf ∧ link.due cfg buf t.closses ≤ now := by
      simpa only [Task.Holding, pc] using holding
    simp only [pc, held, Option.map_some, Option.some.injEq] at sends
    subst sends
    exact due.trans clock
  | _ => simp [pc] at sends

end Task

/-- Every frame of the ring is handed over, held or still in the ring, in the
order of the ring, and none is handed over before it is due. -/
structure Forwarding.Kept (cfg : Settings) (link : Link) (s : Forwarding) : Prop where
  order : s.sent.map Sent.frame ++ (s.task.bufs.toList ++ s.ring.ring.items) = s.put
  due : ∀ sent ∈ s.sent, link.due cfg sent.frame sent.closses ≤ sent.clock
  arrival : s.task.packetArrivalTime ≤ s.now
  stuck : 0 ≤ s.task.timeStuckInLoop
  holding : s.task.Holding cfg link s.now

theorem Forwarding.Kept.step {cfg : Settings} {link : Link} {s : Forwarding} {ns : Ns} {inp : Input}
    (kept : s.Kept cfg link) (clock : s.now ≤ inp.clock) : (s.act cfg link (.step ns inp)).Kept cfg link := by
  have past := kept.arrival.trans clock
  refine ⟨?_, ?_, Task.next_packetArrivalTime past, Task.next_timeStuckInLoop past kept.stuck,
    kept.holding.next kept.stuck⟩
  · simp only [Forwarding.act, List.map_append, List.append_assoc]
    rw [Task.frames_next kept.holding]
    exact kept.order
  · intro sent member
    rcases List.mem_append.mp member with old | new
    · exact kept.due sent old
    · exact Task.sends_due kept.holding (Option.mem_toList.mp new) clock

theorem Forwarding.Kept.receive {cfg : Settings} {link : Link} {s : Forwarding} (kept : s.Kept cfg link)
    (bufs : List Frame) : (s.act cfg link (.receive bufs)).Kept cfg link := by
  unfold Forwarding.act
  dsimp only
  split
  · rename_i e run
    refine ⟨?_, kept.due, kept.arrival, kept.stuck, kept.holding⟩
    simp only [psringEnqueueBurst_items run, ← kept.order, List.append_assoc]
  · exact kept

/-- In every run of a forward task, whatever it finds in the namespace, the
frames handed to `sendWithDelayLoss` are a front part of the frames put into
its ring, in their order, and each is handed over no earlier than it is due. -/
theorem lte_hand_over {cfg : Settings} {link : Link} {s : Forwarding} (reach : (forward cfg link).Reach s) :
    s.sent.map Sent.frame <+: s.put ∧
      ∀ sent ∈ s.sent, sent.frame.udata64 + (link.latency + 8 * sent.closses) * cfg.tscHzMs ≤ sent.clock := by
  have kept : s.Kept cfg link := by
    refine reach.invariant (fun s start => ?_) (fun s a kept able => ?_)
    · obtain ⟨task, put, sent⟩ := start
      refine ⟨?_, by simp [sent], ?_, ?_, ?_⟩
      · simp [task, put, sent, Task.init]
      all_goals simp [task, Task.init, Task.Holding]
    · cases a with
      | step ns inp => exact kept.step able
      | receive bufs => exact kept.receive bufs
  exact ⟨⟨_, kept.order⟩, kept.due⟩

instance (cfg : Settings) (link : Link) (s : Forwarding) (a : ForwardAction) :
    Decidable ((forward cfg link).enabled s a) :=
  inferInstanceAs (Decidable (s.Able a))

/-- A frame that arrives at time 5 and is lost twice is handed over at time 30. -/
theorem lte_hand_over_lost_twice : ∃ s, (forward (.default 1) .default).Reach s ∧
    s.sent.map (fun sent => (sent.frame.addr, sent.closses, sent.clock)) = [(1, 2, 30)] ∧
      s.sent.map Sent.frame <+: s.put ∧ ∀ sent ∈ s.sent,
        sent.frame.udata64 + (0 + 8 * sent.closses) * 1 ≤ sent.clock := by
  let connected : Ns := { Ns.empty with continuousReception := true }
  have run : (forward (.default 1) .default).leadsTo
      (fun s => s.sent.map (fun sent => (sent.frame.addr, sent.closses, sent.clock)) = [(1, 2, 30)])
      ⟨.init, { ring := { slots := 7, items := [], bounded := by decide, sized := by decide }, capacity := 5 }, 0, [], []⟩
      (.receive [⟨1, 60, 5⟩] :: (List.replicate 13 (.step connected ⟨30, true, 0, 2⟩))) = true := by
    decide +kernel
  obtain ⟨s, reach, sent⟩ := Machine.reach_of_leadsTo run (.start ⟨rfl, rfl, rfl⟩)
  exact ⟨s, reach, of_decide_eq_true sent, lte_hand_over reach⟩

end MoonGen
