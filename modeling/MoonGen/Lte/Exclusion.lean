import MoonGen.Lte.Protocol

namespace MoonGen

namespace Phase

variable {p q : Phase}

/-- The mode change that the next store begins. -/
def clears : Phase → List Change
  | clear c => [c]
  | _ => []

/-- The mode that a change under way leads to. -/
def aims : Phase → List Mode
  | set c => [c.target]
  | _ => []

/-- The start-up is over. -/
def Loops : Phase → Prop
  | fresh | start _ => False
  | _ => True

theorem Step.loops (move : p.Step q) (loops : p.Loops) : q.Loops := by
  cases move with
  | begin | starts | starting | started => exact loops.elim
  | _ => trivial

theorem Step.aims_eq (move : p.Step q) (other : p.clears = []) : q.aims = [] := by
  cases move with
  | clear => simp [clears] at other
  | _ => rfl

theorem Loops.write_cases (loops : p.Loops) :
    (p.write = none ∧ p.clears = []) ∨ (∃ c, p = clear c) ∨ ∃ c, p = set c := by
  cases p with
  | fresh | start => exact loops.elim
  | clear c => exact .inr (.inl ⟨c, rfl⟩)
  | set c => exact .inr (.inr ⟨c, rfl⟩)
  | _ => exact .inl ⟨rfl, rfl⟩

end Phase

namespace Protocol

variable {ι : Type}

/-- Every flag that is true, and every change under way, is for one mode. -/
def For (s : Protocol ι) (m : Mode) : Prop :=
  (∀ k, s.flags k = true → k = m) ∧ ∀ j, ∀ k ∈ (s.phase j).aims, k = m

/-- A mode change begins in the mode it leaves, with no other change under way,
or it follows a change of another task to the mode it leads to. -/
def InStep (s : Protocol ι) (i : ι) : Prop :=
  ∀ c ∈ (s.phase i).clears, (s.flags c.source = true ∧ ∀ j, (s.phase j).aims = []) ∨ s.For c.target

instance [Fintype ι] (s : Protocol ι) (m : Mode) : Decidable (s.For m) :=
  inferInstanceAs (Decidable ((∀ k, s.flags k = true → k = m) ∧ ∀ j, ∀ k ∈ (s.phase j).aims, k = m))

instance [Fintype ι] (s : Protocol ι) : DecidablePred s.InStep := fun i =>
  inferInstanceAs (Decidable (∀ c ∈ (s.phase i).clears,
    (s.flags c.source = true ∧ ∀ j, (s.phase j).aims = []) ∨ s.For c.target))

/-- The tasks loop, and the link is in one mode or on the way to it. -/
structure Exclusive (s : Protocol ι) : Prop where
  loops : ∀ j, (s.phase j).Loops
  mode : ∃ m, s.For m

variable {s after : Protocol ι}

theorem Step.for {i : ι} {m : Mode} (step : s.Step i after)
    (flags : ∀ k, after.flags k = true → k = m) (own : ∀ k ∈ (after.phase i).aims, k = m)
    (others : ∀ j, j ≠ i → ∀ k ∈ (s.phase j).aims, k = m) : after.For m :=
  ⟨flags, step.forall_phase (P := fun p => ∀ k ∈ p.aims, k = m) own others⟩

/-- The change leads to its target, which is the mode from here on. -/
theorem Exclusive.step_clear {i : ι} {c : Change} (holds : s.Exclusive) (inStep : s.InStep i)
    (step : s.Step i after) (clear : s.phase i = .clear c) : after.For c.target := by
  have flags := step.stored c.source false (by rw [clear]; rfl)
  have move := step.own
  rw [clear] at move
  have own : ∀ k ∈ (after.phase i).aims, k = c.target := by
    rw [move.set_of_clear]
    exact fun k member => List.mem_singleton.mp member
  obtain ⟨m, flag, _⟩ := holds.mode
  rcases inStep c (by rw [clear]; exact List.mem_singleton_self c) with ⟨source, aimless⟩ | ⟨only, aims⟩
  · refine step.for (fun k active => ?_) own (fun j _ k member => ?_)
    · -- the flag that is cleared was the only one
      rw [flags] at active
      split at active
      · simp at active
      · rename_i other
        exact absurd ((flag k active).trans (flag _ source).symm) other
    · rw [aimless j] at member
      simp at member
  · refine step.for (fun k active => ?_) own (fun j _ => aims j)
    rw [flags] at active
    split at active
    · simp at active
    · exact only k active

theorem Step.loops {i : ι} (step : s.Step i after) (loops : ∀ j, (s.phase j).Loops) (j : ι) : (after.phase j).Loops :=
  step.forall_phase (step.own.loops (loops i)) (fun j _ => loops j) j

theorem Exclusive.step {i : ι} (holds : s.Exclusive) (inStep : s.InStep i)
    (step : s.Step i after) : after.Exclusive := by
  refine ⟨step.loops holds.loops, ?_⟩
  obtain ⟨m, flag, aim⟩ := holds.mode
  rcases (holds.loops i).write_cases with ⟨keeps, calm⟩ | ⟨c, clear⟩ | ⟨c, set⟩
  · refine ⟨m, step.for (fun k active => flag k (step.kept keeps k ▸ active)) ?_ fun j _ => aim j⟩
    rw [step.own.aims_eq calm]
    simp
  · exact ⟨c.target, holds.step_clear inStep step clear⟩
  · have target : c.target = m := aim i _ (by rw [set]; exact List.mem_singleton_self _)
    refine ⟨m, step.for (fun k active => ?_) ?_ fun j _ => aim j⟩
    · rw [step.stored c.target true (by rw [set]; rfl)] at active
      split at active
      · rename_i same
        exact same.trans target
      · exact flag k active
    · rw [step.own.aims_eq (by rw [set]; rfl)]
      simp

end Protocol

/-- At most one mode is active, in every run of tasks past their start-up in
which each mode change begins in the mode it leaves or follows another task. -/
theorem lte_mode_exclusive {ι : Type} [DecidableEq ι] {cfg : Settings} {link : ι → Link} {s : System ι}
    (reach : ((forwardFrom System.Started cfg link).guarded fun s a => a.Meets s.protocol.InStep).Reach s)
    {k m : Mode} (one : s.ns.get k = true) (other : s.ns.get m = true) : k = m := by
  have holds : s.protocol.Exclusive := by
    refine Protocol.invariant (fun s started => ?_) (fun i s after holds inStep step => holds.step inStep step) reach
    have heads : ∀ j, s.protocol.phase j = .head := fun j => System.protocol_phase (started.head j)
    refine ⟨fun j => by rw [heads]; trivial, .rccIdle, fun k active => (started.idle k).mp active, fun j => ?_⟩
    rw [heads]
    simp [Phase.aims]
  obtain ⟨mode, flag, _⟩ := holds.mode
  exact (flag k one).trans (flag m other).symm

theorem lte_mode_exclusive_pair : ∃ s : System Bool,
    ((forwardFrom System.Started (.default 1) fun _ => .default).guarded fun s a => a.Meets s.protocol.InStep).Reach s ∧
      s.ns.get .continuousReception = true ∧ ∀ k, s.ns.get k = true → k = .continuousReception := by
  have run : ((forwardFrom System.Started (.default 1) fun _ => .default).guarded
      fun s a => a.Meets s.protocol.InStep).leadsTo (fun s => s.ns.get .continuousReception) (System.looping id)
      (.receive true [⟨1, 60, 0⟩] :: schedule (List.replicate 7 (true, 0) ++ List.replicate 7 (true, 60))) = true := by
    decide +kernel
  obtain ⟨s, reach, active⟩ := Machine.reach_of_leadsTo run (.start (System.looping_started _))
  exact ⟨s, reach, active, fun k one => lte_mode_exclusive reach one active⟩

/-- The second task has seen a frame in its idle block when the first one takes
the link from idle to continuous reception and, after a quiet time, to short
DRX. It then sets continuous reception beside it. -/
theorem lte_two_modes_active : ∃ s : System Bool,
    (forwardFrom System.Started (.default 1) fun _ => .default).Reach s ∧
      (∀ i c, (s.tasks i).pc ≠ .set c) ∧ s.ns.get .shortDRX = true ∧ s.ns.get .continuousReception = true := by
  have run : (forwardFrom System.Started (.default 1) fun _ => .default).leadsTo
      (fun s => decide ((s.tasks true).pc = .sleepLoad (.drx .short) ∧ (s.tasks false).pc = .wakeFirst ∧
        s.ns.get .shortDRX = true ∧ s.ns.get .continuousReception = true)) (System.looping id)
      (.receive true [⟨1, 60, 0⟩] :: .receive false [⟨2, 60, 0⟩] ::
        schedule (List.replicate 7 (false, 0) ++ List.replicate 7 (true, 0) ++ List.replicate 5 (false, 60) ++
          List.replicate 13 (true, 60) ++ List.replicate 10 (true, 130) ++ List.replicate 5 (true, 331) ++
          List.replicate 2 (false, 331))) = true := by
    decide +kernel
  obtain ⟨s, reach, seen⟩ := Machine.reach_of_leadsTo run (.start (System.looping_started _))
  obtain ⟨first, second, modes⟩ := of_decide_eq_true seen
  refine ⟨s, reach, fun i c => ?_, modes⟩
  cases i with
  | false => rw [second]; exact nofun
  | true => rw [first]; exact nofun

end MoonGen
