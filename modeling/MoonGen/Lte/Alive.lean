import MoonGen.Lte.Protocol

namespace MoonGen

namespace Phase

variable {p q : Phase} {m : Mode}

theorem clear_or_pending (clears : p.write = some (m, false)) : (∃ c, p = clear c) ∨ m ∈ p.pending := by
  cases p with
  | clear c => exact .inl ⟨c, rfl⟩
  | start modes =>
    cases modes with
    | nil => simp [write] at clears
    | cons k rest =>
      simp only [write, Option.some.injEq, Prod.mk.injEq, and_true] at clears
      exact .inr (clears ▸ List.mem_cons_self)
  | _ => simp [write] at clears

theorem Step.not_pending (move : p.Step q) (sets : p.write = some (m, true)) : m ∉ q.pending := by
  cases move with
  | begin =>
    simp only [write, Option.some.injEq, Prod.mk.injEq, and_true] at sets
    simp [← sets, pending]
  | starts => simp [write] at sets
  | _ => simp [pending]

theorem Step.pending_subset (move : p.Step q) (begun : p ≠ fresh) : q.pending ⊆ p.pending := by
  cases move with
  | begin => exact absurd rfl begun
  | starts => exact List.subset_cons_self _ _
  | _ => simp [pending]

end Phase

section
variable {ι : Type}

/-- No flag is set that the start-up of a task is still about to clear. -/
def Protocol.SetsLast (s : Protocol ι) (i : ι) : Prop :=
  ∀ m, (s.phase i).write = some (m, true) → ∀ j, m ∉ (s.phase j).pending

instance [Fintype ι] (s : Protocol ι) : DecidablePred s.SetsLast := fun i =>
  inferInstanceAs (Decidable (∀ m, (s.phase i).write = some (m, true) → ∀ j, m ∉ (s.phase j).pending))

/-- Some mode is set for good, or about to be set. -/
def Protocol.Alive (s : Protocol ι) : Prop :=
  (∃ m, s.flags m = true ∧ ∀ j, m ∉ (s.phase j).pending) ∨ (∃ j c, s.phase j = .set c) ∨ ∃ j, s.phase j = .fresh

/-- A step that sets nothing and does not begin a mode change clears only what
the start-up of its task has pending. -/
theorem Protocol.Alive.step_start {s after : Protocol ι} {i : ι} (alive : s.Alive) (step : s.Step i after)
    (sets : ∀ m, (s.phase i).write ≠ some (m, true)) (clears : ∀ c, s.phase i ≠ .clear c) : after.Alive := by
  have begun : s.phase i ≠ .fresh := fun first => sets .rccIdle (by rw [first]; rfl)
  rcases alive with ⟨m, flag, last⟩ | ⟨j, c, change⟩ | ⟨j, fresh⟩
  · refine .inl ⟨m, ?_, fun j => ?_⟩
    · match written : (s.phase i).write with
      | none => rw [step.kept written]; exact flag
      | some (k, true) => exact absurd written (sets k)
      | some (k, false) =>
        have other : m ≠ k := by
          intro same
          rcases Phase.clear_or_pending written with ⟨c, clear⟩ | open_
          · exact clears c clear
          · exact last i (same ▸ open_)
        rw [step.stored k false written, if_neg other]
        exact flag
    · have own : m ∉ (after.phase i).pending := fun later => last i (step.own.pending_subset begun later)
      exact step.forall_phase (P := fun p => m ∉ p.pending) own (fun j _ => last j) j
  · have other : j ≠ i := by
      rintro rfl
      exact sets c.target (by rw [change]; rfl)
    exact .inr (.inl ⟨j, c, by rw [step.others j other, change]⟩)
  · have other : j ≠ i := by
      rintro rfl
      exact begun fresh
    exact .inr (.inr ⟨j, by rw [step.others j other, fresh]⟩)

theorem Protocol.Alive.step {s after : Protocol ι} {i : ι} (alive : s.Alive) (last : s.SetsLast i)
    (step : s.Step i after) : after.Alive := by
  by_cases sets : ∃ m, (s.phase i).write = some (m, true)
  · obtain ⟨m, stores⟩ := sets
    refine .inl ⟨m, by rw [step.stored m true stores, if_pos rfl], ?_⟩
    exact step.forall_phase (P := fun p => m ∉ p.pending) (step.own.not_pending stores) fun j _ => last m stores j
  · by_cases clears : ∃ c, s.phase i = .clear c
    · obtain ⟨c, clear⟩ := clears
      exact .inr (.inl ⟨i, c, (clear ▸ step.own).set_of_clear⟩)
    · exact alive.step_start step (not_exists.mp sets) (not_exists.mp clears)

variable [DecidableEq ι] {cfg : Settings} {link : ι → Link}

/-- Some mode is active whenever all tasks stand at the head of their loop, in
every run in which no task sets a flag that the start-up of another task is
still about to clear. -/
theorem lte_some_mode_active [Nonempty ι] {s : System ι}
    (reach : ((forwardFrom System.Initial cfg link).guarded fun s a => a.Meets s.protocol.SetsLast).Reach s)
    (heads : ∀ i, (s.tasks i).pc = .head) : ∃ m, s.ns.get m = true := by
  have alive : s.protocol.Alive := by
    refine Protocol.invariant (fun s initial => ?_) (fun i s after alive last step => alive.step last step) reach
    have fresh : ∀ i, s.protocol.phase i = .fresh := fun i => by simp only [System.protocol, initial.2]; rfl
    exact .inr (.inr ⟨Classical.arbitrary ι, fresh _⟩)
  have phase : ∀ i, s.protocol.phase i = .head := fun i => System.protocol_phase (heads i)
  rcases alive with ⟨m, flag, _⟩ | ⟨j, c, change⟩ | ⟨j, fresh⟩
  · exact ⟨m, flag⟩
  · simp [phase] at change
  · simp [phase] at fresh

end

/-- A task starts up and sleeps through its first idle cycle, until it finds a
frame in its ring. -/
def idleCycle (i : Bool) : List (Action Bool) :=
  schedule (List.replicate 14 (i, 0) ++ List.replicate 5 (i, 60))

def wakeUp (i : Bool) : List (Action Bool) := schedule (List.replicate 5 (i, 60))

theorem lte_some_mode_active_pair : ∃ s : System Bool,
    ((forwardFrom System.Initial (.default 1) fun _ => .default).guarded fun s a => a.Meets s.protocol.SetsLast).Reach s ∧
      (∀ i, (s.tasks i).pc = .head) ∧ ∃ m, s.ns.get m = true := by
  have run : ((forwardFrom System.Initial (.default 1) fun _ => .default).guarded
      fun s a => a.Meets s.protocol.SetsLast).leadsTo (fun s => decide (∀ i, (s.tasks i).pc = .head)) (System.fresh id)
      (.receive true [⟨1, 60, 0⟩] :: (schedule (List.replicate 7 (false, 0)) ++ idleCycle true ++ wakeUp true)) = true := by
    decide +kernel
  obtain ⟨s, reach, heads⟩ := Machine.reach_of_leadsTo run (.start (System.fresh_initial _))
  exact ⟨s, reach, of_decide_eq_true heads, lte_some_mode_active reach (of_decide_eq_true heads)⟩

/-- The second task makes the link idle, the first one then turns the mode to
continuous reception, and the rest of the start-up clears it. -/
theorem lte_no_mode_active : ∃ s : System Bool,
    (forwardFrom System.Initial (.default 1) fun _ => .default).Reach s ∧
      (∀ i, (s.tasks i).pc = .head) ∧ ∀ m, s.ns.get m = false := by
  have run : (forwardFrom System.Initial (.default 1) fun _ => .default).leadsTo
      (fun s => decide ((∀ i, (s.tasks i).pc = .head) ∧ ∀ m, s.ns.get m = false)) (System.fresh id)
      (.receive true [⟨1, 60, 0⟩] :: (idleCycle true ++ schedule [(false, 60), (true, 60), (true, 60)] ++
        schedule (List.replicate 6 (false, 60)) ++ schedule (List.replicate 3 (true, 60)))) = true := by
    decide +kernel
  obtain ⟨s, reach, seen⟩ := Machine.reach_of_leadsTo run (.start (System.fresh_initial _))
  exact ⟨s, reach, of_decide_eq_true seen⟩

end MoonGen
