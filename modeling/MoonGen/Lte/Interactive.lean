import MoonGen.Lte.System

namespace MoonGen

/-- One entry of `ns.thread`, the parameters of one direction. -/
structure ThreadParams where
  rate : ℚ
  latency : Nat
  xlatency : ℚ
  lossrate : ℚ
  clossrate : ℚ
  catchuprate : ℚ
  deriving DecidableEq

/-- The parameters as the statements of `forward` use them, with the speed of
the device that the task asked for at its start. -/
def ThreadParams.link (p : ThreadParams) (linkspeed : ℚ) : Link where
  linkspeed
  rate := p.rate
  latency := p.latency
  xlatency := p.xlatency
  catchuprate := p.catchuprate

/-- A forward task of the interactive script. It keeps `ns.active_time` as it
was at the head of the loop; all other parameters are read where they are used. -/
structure LiveTask extends Task where
  activeTime : Nat
  deriving DecidableEq

def LiveTask.init : LiveTask := { Task.init with activeTime := 0 }

/-- `get_ns_last_packet_time` is no closure: its `ns` is the global variable of
that name in the Lua state of the task, and indexing `nil` is an error. -/
def getNsLastPacketTime (globalNs : Option Ns) : Option Nat := globalNs.map Ns.lastPacketTime

/-- The statement at the program counter, as in the script without a server but
for the head of the loop and for the test that ends continuous reception. -/
def LiveTask.next (t : LiveTask) (cfg : Settings) (link : Link) (inp : Input) (ns : Ns) (globalNs : Option Ns)
    (ring : PsRing Frame) : LiveTask :=
  match t.pc with
  | .head => { t with pc := if inp.running then .firstLoad else .returned, activeTime := cfg.activeTime }
  | .quietActivity =>
    -- `pcall(get_ns_last_packet_time)`: its result only says whether there was an error
    { t with pc := if (getNsLastPacketTime globalNs).isSome then .quietClock else .sleepLoad (.drx .short) }
  | _ => { t with toTask := t.toTask.next { cfg with activeTime := t.activeTime } link inp ns ring }

/-- The forward tasks and their rings, the namespace with the parameters that the server
changes, and the global variable `ns` of each task's Lua state. -/
structure Live (ι : Type) where
  ns : Ns
  cfg : Settings
  thread : ι → ThreadParams
  globalNs : ι → Option Ns
  now : Nat
  tasks : ι → LiveTask
  ring : ι → Bool
  rings : Bool → PsRing Frame

/-- A step of a forward task, a batch from a receive task of a ring, or new
parameters from the server. -/
inductive LiveAction (ι : Type) where
  | task (i : ι) (inp : Input)
  | receive (r : Bool) (bufs : List Frame)
  | update (cfg : Settings) (thread : ι → ThreadParams)

namespace Live

variable {ι : Type} [DecidableEq ι]

def step (linkspeed : ι → ℚ) (s : Live ι) : LiveAction ι → Live ι
  | .task i inp =>
    { s with
      ns := (s.tasks i).store s.ns
      now := inp.clock
      tasks := Function.update s.tasks i
        ((s.tasks i).next s.cfg ((s.thread i).link (linkspeed i)) inp s.ns (s.globalNs i) (s.rings (s.ring i)))
      rings := Function.update s.rings (s.ring i) ((s.tasks i).take (s.rings (s.ring i))) }
  | .receive r bufs =>
    match psringEnqueueBurst (s.rings r) bufs with
    | some e => { s with rings := Function.update s.rings r e.psr }
    | none => s
  | .update cfg thread => { s with cfg, thread }

/-- The clock never goes back, losses are only drawn at a positive rate, a batch
is one that the ring call can read, and the server leaves the clock alone. -/
def Able (s : Live ι) : LiveAction ι → Prop
  | .task i inp => s.now ≤ inp.clock ∧ (0 < inp.closses → 0 < (s.thread i).clossrate)
  | .receive r bufs => (psringEnqueueBurst (s.rings r) bufs).isSome
  | .update cfg _ => cfg.tscHzMs = s.cfg.tscHzMs

/-- The tasks before their first statement. -/
structure Initial (globalNs : Option Ns) (s : Live ι) : Prop where
  ns : s.ns = .empty
  globals : ∀ i, s.globalNs i = globalNs
  tasks : ∀ i, s.tasks i = .init

end Live

variable {ι : Type} [DecidableEq ι]

/-- The interactive script, with what the global `ns` of its tasks holds. No
module of the script or of the library ever assigns it. -/
def interactive (globalNs : Option Ns) (linkspeed : ι → ℚ) : Machine (Live ι) (LiveAction ι) where
  start := Live.Initial globalNs
  enabled := Live.Able
  next := Live.step linkspeed

namespace Live

variable {linkspeed : ι → ℚ} (s : Live ι) {i j : ι} {inp : Input} {r : Bool} {bufs : List Frame}

@[simp] theorem step_task_self : (s.step linkspeed (.task i inp)).tasks i =
    (s.tasks i).next s.cfg ((s.thread i).link (linkspeed i)) inp s.ns (s.globalNs i) (s.rings (s.ring i)) := by
  simp [step]

@[simp] theorem step_task_other (other : j ≠ i) : (s.step linkspeed (.task i inp)).tasks j = s.tasks j := by
  simp [step, other]

/-- A batch from a receive task changes nothing but a ring. -/
theorem step_receive : ∃ rings, s.step linkspeed (.receive r bufs) = { s with rings } := by
  unfold step
  dsimp only
  split
  · exact ⟨_, rfl⟩
  · exact ⟨s.rings, rfl⟩

/-- The global variable `ns` is never assigned. -/
@[simp] theorem step_globalNs (a : LiveAction ι) : (s.step linkspeed a).globalNs = s.globalNs := by
  cases a with
  | task i inp => rfl
  | receive r bufs =>
    obtain ⟨rings, same⟩ := @step_receive ι _ linkspeed s r bufs
    rw [same]
  | update cfg thread => rfl

end Live

theorem interactive_globalNs {globalNs : Option Ns} {linkspeed : ι → ℚ} {s : Live ι}
    (reach : (interactive globalNs linkspeed).Reach s) (i : ι) : s.globalNs i = globalNs := by
  induction reach with
  | start first => exact first.globals i
  | step _ _ ih =>
    rw [interactive, Live.step_globalNs]
    exact ih

end MoonGen
