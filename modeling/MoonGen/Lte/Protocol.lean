import MoonGen.Lte.Phase
import MoonGen.Lte.System

namespace MoonGen

/-- The forward tasks reduced to what they do with the mode flags. -/
structure Protocol (ι : Type) where
  flags : Mode → Bool
  phase : ι → Phase

/-- One task moves on to another phase and stores the flag that goes with the
old one. -/
structure Protocol.Step {ι : Type} (i : ι) (s after : Protocol ι) : Prop where
  own : (s.phase i).Step (after.phase i)
  others : ∀ j, j ≠ i → after.phase j = s.phase j
  kept : (s.phase i).write = none → ∀ k, after.flags k = s.flags k
  stored : ∀ m value, (s.phase i).write = some (m, value) → ∀ k, after.flags k = if k = m then value else s.flags k

section
variable {ι : Type}

/-- A fact about the phases of all tasks is checked for the task that moves and
for the others as they were. -/
theorem Protocol.Step.forall_phase {i : ι} {s after : Protocol ι} {P : Phase → Prop} (step : s.Step i after)
    (own : P (after.phase i)) (others : ∀ j, j ≠ i → P (s.phase j)) (j : ι) : P (after.phase j) := by
  by_cases same : j = i
  · exact same ▸ own
  · rw [step.others j same]
    exact others j same

def System.protocol (s : System ι) : Protocol ι where
  flags := s.ns.get
  phase i := (s.tasks i).pc.phase

theorem System.protocol_phase {s : System ι} {i : ι} {pc : Pc} (stands : (s.tasks i).pc = pc) :
    s.protocol.phase i = pc.phase :=
  congrArg Pc.phase stands

variable [DecidableEq ι]

/-- The tasks refine the protocol: each step of a task is a step of the
protocol, and the receive tasks do not show. -/
theorem System.step_protocol (s : System ι) (cfg : Settings) (link : ι → Link) (i : ι) (inp : Input) :
    s.protocol.Step i (s.step cfg link (.task i inp)).protocol := by
  refine ⟨?_, ?_, ?_, ?_⟩
  · simp only [System.protocol, System.step_task_self]
    exact Task.next_phase ..
  · intro j other
    simp only [System.protocol, System.step_task_other s other]
  · intro keeps k
    exact Task.store_get_of_none keeps s.ns k
  · intro m value stores k
    exact Task.store_get_of_some stores s.ns k

theorem System.receive_protocol (s : System ι) (cfg : Settings) (link : ι → Link) (r : Bool) (bufs : List Frame) :
    (s.step cfg link (.receive r bufs)).protocol = s.protocol := by
  simp only [System.protocol, System.step_receive_ns, System.step_receive_tasks]

/-- What the steps of the protocol keep, under a condition on each step, holds
in every state that the tasks reach under that condition. -/
theorem Protocol.invariant {I : Protocol ι → Prop} {guard : Protocol ι → ι → Prop} {start : System ι → Prop}
    {cfg : Settings} {link : ι → Link} {s : System ι} (init : ∀ s, start s → I s.protocol)
    (kept : ∀ i s after, I s → guard s i → s.Step i after → I after)
    (reach : ((forwardFrom start cfg link).guarded fun s a => a.Meets (guard s.protocol)).Reach s) : I s.protocol := by
  refine reach.invariant init ?_
  intro before a holds able
  cases a with
  | task i inp => exact kept i _ _ holds able.2 (before.step_protocol cfg link i inp)
  | receive i bufs =>
    have same : (before.step cfg link (.receive i bufs)).protocol = before.protocol := before.receive_protocol ..
    exact same ▸ holds

end

end MoonGen
