import Mathlib.Logic.Function.Basic
import MoonGen.Lib.Machine
import MoonGen.Lte.Forward

namespace MoonGen

/-- The forward tasks, the namespace they share and the clock they read. There are two rings,
and all tasks for one direction have the same. -/
structure System (ι : Type) where
  ns : Ns
  now : Nat
  tasks : ι → Task
  ring : ι → Bool
  rings : Bool → PsRing Frame

/-- A step of one forward task, or a batch from a receive task of a ring. -/
inductive Action (ι : Type) where
  | task (i : ι) (inp : Input)
  | receive (r : Bool) (bufs : List Frame)

namespace System

variable {ι : Type} [DecidableEq ι]

def step (cfg : Settings) (link : ι → Link) (s : System ι) : Action ι → System ι
  | .task i inp =>
    { s with
      ns := (s.tasks i).store s.ns
      now := inp.clock
      tasks := Function.update s.tasks i ((s.tasks i).next cfg (link i) inp s.ns (s.rings (s.ring i)))
      rings := Function.update s.rings (s.ring i) ((s.tasks i).take (s.rings (s.ring i))) }
  | .receive r bufs =>
    match psringEnqueueBurst (s.rings r) bufs with
    | some e => { s with rings := Function.update s.rings r e.psr }
    | none => s

/-- The clock never goes back, and a batch is one that the ring call can read. -/
def Able (s : System ι) : Action ι → Prop
  | .task _ inp => s.now ≤ inp.clock
  | .receive r bufs => (psringEnqueueBurst (s.rings r) bufs).isSome

instance (s : System ι) : (a : Action ι) → Decidable (s.Able a)
  | .task _ inp => inferInstanceAs (Decidable (s.now ≤ inp.clock))
  | .receive r bufs => inferInstanceAs (Decidable (psringEnqueueBurst (s.rings r) bufs).isSome)

/-- All tasks are past the stores before the loop, which left the link idle. -/
structure Started (s : System ι) : Prop where
  head : ∀ i, (s.tasks i).pc = .head
  idle : s.ns.Only .rccIdle
  first : s.ns.firstRccConnected = false

section
variable {cfg : Settings} {link : ι → Link} (s : System ι) {i j : ι} {inp : Input} {r : Bool} {bufs : List Frame}

@[simp] theorem step_task_now : (s.step cfg link (.task i inp)).now = inp.clock := rfl

@[simp] theorem step_task_self : (s.step cfg link (.task i inp)).tasks i =
    (s.tasks i).next cfg (link i) inp s.ns (s.rings (s.ring i)) := by
  simp [step]

@[simp] theorem step_task_other (other : j ≠ i) : (s.step cfg link (.task i inp)).tasks j = s.tasks j := by
  simp [step, other]

@[simp] theorem step_receive_ns : (s.step cfg link (.receive r bufs)).ns = s.ns := by
  unfold step
  dsimp only
  split <;> rfl

@[simp] theorem step_receive_now : (s.step cfg link (.receive r bufs)).now = s.now := by
  unfold step
  dsimp only
  split <;> rfl

@[simp] theorem step_receive_tasks : (s.step cfg link (.receive r bufs)).tasks = s.tasks := by
  unfold step
  dsimp only
  split <;> rfl

end

end System

variable {ι : Type}

def System.Initial (s : System ι) : Prop := s.ns = .empty ∧ ∀ i, s.tasks i = .init

variable [DecidableEq ι]

def forwardFrom (start : System ι → Prop) (cfg : Settings) (link : ι → Link) : Machine (System ι) (Action ι) where
  start
  enabled := System.Able
  next := System.step cfg link

instance (start : System ι → Prop) (cfg : Settings) (link : ι → Link) (s : System ι) (a : Action ι) :
    Decidable ((forwardFrom start cfg link).enabled s a) :=
  inferInstanceAs (Decidable (s.Able a))

/-- A condition on the task that takes the step. -/
def Action.Meets (a : Action ι) (guard : ι → Prop) : Prop :=
  match a with
  | .task i _ => guard i
  | .receive _ _ => True

instance (a : Action ι) (guard : ι → Prop) [DecidablePred guard] : Decidable (a.Meets guard) :=
  match a with
  | .task i _ => inferInstanceAs (Decidable (guard i))
  | .receive _ _ => inferInstanceAs (Decidable True)

omit [DecidableEq ι]

/-- The defaults of `configure`. -/
def Settings.default (tscHzMs : Nat) : Settings where
  tscHzMs
  shortDRXCycleLength := 6
  longDRXCycleLength := 12
  activeTime := 1
  continuousReceptionInactivityTimer := 200
  shortDRXInactivityTimer := 2298
  longDRXInactivityTimer := 7848
  rccIdleCycleLength := 50
  rccConnectionBuildDelay := 70

/-- A link of 100 on a device of 10000 Mbit/s, otherwise with the defaults. -/
def Link.default : Link where
  linkspeed := 10000
  rate := 100
  latency := 0
  xlatency := 0
  catchuprate := 0

/-- Tasks before their first statement, with empty rings. -/
def System.fresh (ring : ι → Bool) : System ι where
  ns := .empty
  now := 0
  tasks _ := .init
  ring
  rings _ := { ring := { slots := 7, items := [], bounded := by decide, sized := by decide }, capacity := 5 }

/-- Tasks behind their start-up, with empty rings. -/
def System.looping (ring : ι → Bool) : System ι :=
  { System.fresh ring with
    ns := { Ns.empty with rccIdle := true }
    tasks := fun _ => { Task.init with pc := .head } }

theorem System.fresh_initial (ring : ι → Bool) : (System.fresh ring).Initial := ⟨rfl, fun _ => rfl⟩

theorem System.looping_started (ring : ι → Bool) : (System.looping ring).Started :=
  ⟨fun _ => rfl, Ns.only_set Ns.get_empty .rccIdle, rfl⟩

/-- Steps of tasks at given times, without losses and without a stop. -/
def schedule (steps : List (ι × Nat)) : List (Action ι) :=
  steps.map fun (i, clock) => .task i { clock, running := true, extraDelay := 0, closses := 0 }

end MoonGen
