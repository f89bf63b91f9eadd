import MoonGen.Lte.Catchup

namespace MoonGen

/-- The statements between the receive call of an iteration in continuous
reception and the end of its block. -/
def Pc.inQuiet : Pc → Bool
  | .quietActivity | .quietClock | .quietLoad | .clear .quiet | .set .quiet => true
  | _ => false

namespace Live

/-- The time from which on the inactivity timer of continuous reception has run out. -/
def quietSince (s : Live Unit) : Nat := s.ns.lastPacketTime + s.cfg.inactiveContinuousReceptionCycleTime

/-- What the actions of the rest of the block are: statements of the task, at
times when the timer has run out, and batches from the receive task. -/
def Lasts (s x : Live Unit) : LiveAction Unit → Prop
  | .task _ inp => (x.tasks ()).pc.inQuiet = true ∧ s.quietSince < inp.clock
  | .receive _ _ => True
  | .update _ _ => False

/-- The rest of the block that the task runs through from the state `s` on. -/
def quietBlock (linkspeed : ℚ) (s : Live Unit) : Machine (Live Unit) (LiveAction Unit) where
  start x := x = s
  enabled x a := x.Able a ∧ s.Lasts x a
  next := Live.step fun _ => linkspeed

def Left (x : Live Unit) : Prop := (x.tasks ()).pc = .sleepLoad (.drx .short)

/-- The task leaves continuous reception for the short DRX cycle: it comes to
the end of the block, and does so with the two flags changed. -/
def LeavesContinuous (linkspeed : ℚ) (s : Live Unit) : Prop :=
  (∃ x, (quietBlock linkspeed s).Reach x ∧ x.Left) ∧
    ∀ x, (quietBlock linkspeed s).Reach x → x.Left →
      x.ns.get .continuousReception = false ∧ x.ns.get .shortDRX = true

/-- How far the task has come in the block of state `s`, when `pcall` succeeds. -/
structure Stage (s x : Live Unit) : Prop where
  globals : x.globalNs = s.globalNs
  cfg : x.cfg = s.cfg
  flags : match (x.tasks ()).pc with
    | .quietActivity | .quietClock | .clear .quiet => x.ns = s.ns
    | .quietLoad => x.ns = s.ns ∧ s.quietSince < (x.tasks ()).tsc
    | .set .quiet => x.ns = s.ns.set false .continuousReception
    | .sleepLoad (.drx .short) => x.ns = (s.ns.set false .continuousReception).set true .shortDRX
    | _ => False

/-- How many statements of the block are left. -/
def rest (x : Live Unit) : Nat :=
  match (x.tasks ()).pc with
  | .quietActivity => 5
  | .quietClock => 4
  | .quietLoad => 3
  | .clear .quiet => 2
  | .set .quiet => 1
  | _ => 0

variable {s x : Live Unit} {linkspeed : ℚ} {inp : Input}

/-- A statement of the block leads to the next one. -/
theorem Stage.task (stage : Stage s x) (known : (s.globalNs ()).isSome) (inside : (x.tasks ()).pc.inQuiet = true)
    (late : s.quietSince < inp.clock) :
    Stage s (x.step (fun _ => linkspeed) (.task () inp)) ∧
      (x.step (fun _ => linkspeed) (.task () inp)).rest + 1 = x.rest := by
  obtain ⟨globals, cfg, flags⟩ := stage
  have global : (getNsLastPacketTime (x.globalNs ())).isSome := by
    rw [globals, getNsLastPacketTime, Option.isSome_map]
    exact known
  have moved := @step_task_self Unit _ (fun _ => linkspeed) x () inp
  generalize place : (x.tasks ()).pc = p at inside flags
  cases p with
  | quietActivity =>
    have next : ((x.step (fun _ => linkspeed) (.task () inp)).tasks ()).pc = .quietClock := by
      rw [moved]
      simp [LiveTask.next, place, global]
    refine ⟨⟨globals, cfg, ?_⟩, by simp only [rest, next, place]⟩
    rw [next]
    simpa [step, Task.store, place] using flags
  | quietClock =>
    have next : ((x.step (fun _ => linkspeed) (.task () inp)).tasks ()).pc = .quietLoad := by
      rw [moved]
      simp [LiveTask.next, Task.next, place]
    refine ⟨⟨globals, cfg, ?_⟩, by simp only [rest, next, place]⟩
    rw [next]
    refine ⟨by simpa [step, Task.store, place] using flags, ?_⟩
    rw [moved]
    simpa [LiveTask.next, Task.next, place] using late
  | quietLoad =>
    have next : ((x.step (fun _ => linkspeed) (.task () inp)).tasks ()).pc = .clear .quiet := by
      rw [moved]
      have passed := flags.2
      simp only [quietSince, Settings.inactiveContinuousReceptionCycleTime] at passed
      simp [LiveTask.next, Task.next, place, flags.1, cfg, Settings.inactiveContinuousReceptionCycleTime, passed]
    refine ⟨⟨globals, cfg, ?_⟩, by simp only [rest, next, place]⟩
    rw [next]
    simpa [step, Task.store, place] using flags.1
  | clear c =>
    cases c with
    | quiet =>
      have next : ((x.step (fun _ => linkspeed) (.task () inp)).tasks ()).pc = .set .quiet := by
        rw [moved]
        simp [LiveTask.next, Task.next, place]
      refine ⟨⟨globals, cfg, ?_⟩, by simp only [rest, next, place]⟩
      rw [next]
      simp [step, Task.store, place, Change.source, flags]
    | _ => simp [Pc.inQuiet] at inside
  | set c =>
    cases c with
    | quiet =>
      have next : ((x.step (fun _ => linkspeed) (.task () inp)).tasks ()).pc = .sleepLoad (.drx .short) := by
        rw [moved]
        simp [LiveTask.next, Task.next, place, Change.after]
      refine ⟨⟨globals, cfg, ?_⟩, by simp only [rest, next, place]⟩
      rw [next]
      simp [step, Task.store, place, Change.target, flags]
    | _ => simp [Pc.inQuiet] at inside
  | _ => simp [Pc.inQuiet] at inside

theorem Stage.left_or_inside (stage : Stage s x) : x.Left ∨ (x.tasks ()).pc.inQuiet = true := by
  obtain ⟨_, _, flags⟩ := stage
  unfold Left
  generalize (x.tasks ()).pc = p at flags ⊢
  split at flags
  all_goals first | exact .inr rfl | exact .inl rfl | exact flags.elim

/-- Every state of the block is a stage of it. -/
theorem stage_of_reach (known : (s.globalNs ()).isSome) (place : (s.tasks ()).pc = .quietActivity)
    (reach : (quietBlock linkspeed s).Reach x) : Stage s x := by
  refine reach.invariant (fun y first => ?_) fun y a stage able => ?_
  · cases first
    exact ⟨rfl, rfl, by rw [place]⟩
  · cases a with
    | task i inp => exact (stage.task known able.2.1 able.2.2).1
    | receive i bufs =>
      obtain ⟨rings, unchanged⟩ := @step_receive Unit _ (fun _ => linkspeed) y i bufs
      show Stage s (y.step (fun _ => linkspeed) (.receive i bufs))
      rw [unchanged]
      exact ⟨stage.globals, stage.cfg, stage.flags⟩
    | update cfg thread => exact able.2.elim

/-- The task can take its next statement at a time when the timer has run out. -/
theorem exists_late (s x : Live Unit) : ∃ inp, x.Able (.task () inp) ∧ s.quietSince < inp.clock :=
  ⟨{ clock := max x.now (s.quietSince + 1), running := true, extraDelay := 0, closses := 0 },
    ⟨Nat.le_max_left _ _, fun positive => absurd positive (Nat.lt_irrefl 0)⟩,
    Nat.lt_of_lt_of_le (Nat.lt_succ_self _) (Nat.le_max_right _ _)⟩

/-- The task comes to the end of the block by its own statements. -/
theorem leaves_block (known : (s.globalNs ()).isSome) (place : (s.tasks ()).pc = .quietActivity) (n : Nat)
    (reach : (quietBlock linkspeed s).Reach x) (count : x.rest = n) :
    ∃ y, (quietBlock linkspeed s).Reach y ∧ y.Left := by
  induction n generalizing x with
  | zero =>
    rcases (stage_of_reach known place reach).left_or_inside with left | inside
    · exact ⟨x, reach, left⟩
    · unfold rest at count
      generalize (x.tasks ()).pc = p at inside count
      unfold Pc.inQuiet at inside
      split at inside
      all_goals simp at inside count
  | succ n ih =>
    have stage := stage_of_reach known place reach
    rcases stage.left_or_inside with left | inside
    · exact ⟨x, reach, left⟩
    · obtain ⟨inp, able, late⟩ := exists_late s x
      have fewer := (@Stage.task s x linkspeed inp stage known inside late).2
      exact ih (.step reach ⟨able, inside, late⟩) (by simp only [quietBlock]; omega)

/-- Where the global variable is `nil`, the task leaves the block by the first
of its statements and changes no flag. -/
theorem leaves_unchanged (unknown : s.globalNs () = none) (place : (s.tasks ()).pc = .quietActivity) :
    ∃ x, (quietBlock linkspeed s).Reach x ∧ x.Left ∧ x.ns = s.ns := by
  obtain ⟨inp, able, late⟩ := exists_late s s
  have inside : (s.tasks ()).pc.inQuiet = true := by rw [place]; rfl
  have first : (quietBlock linkspeed s).Reach s := .start rfl
  have enabled : (quietBlock linkspeed s).enabled s (.task () inp) := ⟨able, inside, late⟩
  refine ⟨s.step (fun _ => linkspeed) (.task () inp), first.step enabled, ?_, ?_⟩
  · rw [Left, step_task_self]
    simp [LiveTask.next, place, unknown, getNsLastPacketTime]
  · simp [step, Task.store, place]

theorem not_leavesContinuous (unknown : s.globalNs () = none) (place : (s.tasks ()).pc = .quietActivity)
    (found : s.ns.get .continuousReception = true) : ¬s.LeavesContinuous linkspeed := by
  rintro ⟨_, changed⟩
  obtain ⟨x, block, left, same⟩ := @leaves_unchanged s linkspeed unknown place
  have cleared := (changed x block left).1
  rw [same, found] at cleared
  contradiction

end Live

open Live

/-- A task in continuous reception whose inactivity timer has run out leaves it
for the short DRX cycle exactly when the Lua state of the task has a global

variable `ns` that can be indexed: otherwise `pcall` fails. -/
theorem interactive_leaves_continuous_iff {globalNs : Option Ns} {linkspeed : ℚ} {s : Live Unit}
    (reach : (interactive globalNs fun _ => linkspeed).Reach s) (place : (s.tasks ()).pc = .quietActivity)
    (found : s.ns.get .continuousReception = true) : s.LeavesContinuous linkspeed ↔ globalNs.isSome := by
  have global : s.globalNs () = globalNs := interactive_globalNs reach ()
  constructor
  · intro leaves
    by_contra unknown
    have absent : s.globalNs () = none := by rw [global]; simpa using unknown
    exact not_leavesContinuous absent place found leaves
  · intro given
    have known : (s.globalNs ()).isSome := by rw [global]; exact given
    refine ⟨leaves_block known place 5 (.start rfl) (by simp only [rest, place]), fun x block left => ?_⟩
    have flags := (stage_of_reach known place block).flags
    rw [left] at flags
    simp [flags]

theorem interactive_quiet_run : ∃ s : Live Unit, (interactive none fun _ => 10000).Reach s ∧
    (s.tasks ()).pc = .quietActivity ∧ s.ns.get .continuousReception = true ∧ s.ns.get .shortDRX = false := by
  have run : (interactive none fun _ => 10000).leadsTo
      (fun s => (s.tasks ()).pc = .quietActivity && s.ns.get .continuousReception && !s.ns.get .shortDRX) Live.fresh
      (.receive true [⟨1, 60, 0⟩] :: (steps 0 0 14 ++ steps 60 0 13 ++ steps 130 0 14 ++ steps 1000 0 4)) = true := by
    decide +kernel
  obtain ⟨s, reach, seen⟩ := Machine.reach_of_leadsTo run (.start Live.fresh_initial)
  simp only [Bool.and_eq_true, decide_eq_true_eq, Bool.not_eq_true'] at seen
  exact ⟨s, reach, seen.1.1, seen.1.2, seen.2⟩

theorem interactive_leaves_continuous_none : ∃ s : Live Unit, (interactive none fun _ => 10000).Reach s ∧
    (s.LeavesContinuous 10000 ↔ False) := by
  obtain ⟨s, reach, place, found, _⟩ := interactive_quiet_run
  exact ⟨s, reach, by simpa using interactive_leaves_continuous_iff reach place found⟩

/-- The global variable is `nil` in the script as it is: a task in continuous
reception finds no frame, and behind the block both flags are as they were,
however late it is. -/
theorem interactive_stays_continuous : ∃ s : Live Unit, (interactive none fun _ => 10000).Reach s ∧
    (s.tasks ()).pc = .quietActivity ∧ s.ns.get .continuousReception = true ∧ ¬s.LeavesContinuous 10000 ∧
    ∃ x, (quietBlock 10000 s).Reach x ∧ x.Left ∧ x.ns.get .continuousReception = true ∧ x.ns.get .shortDRX = false := by
  obtain ⟨s, reach, place, found, short⟩ := interactive_quiet_run
  have unknown : s.globalNs () = none := interactive_globalNs reach ()
  obtain ⟨x, block, left, same⟩ := @leaves_unchanged s 10000 unknown place
  exact ⟨s, reach, place, found, not_leavesContinuous unknown place found, x, block, left, same ▸ found, same ▸ short⟩

/-- Statements outside the two DRX blocks and the changes from and to a DRX mode. -/
def Pc.awake : Pc → Bool
  | .quietClock | .quietLoad | .clear .quiet | .set .quiet | .clear (.expire _) | .set (.expire _) => false
  | .clear (.wake (.drx _)) | .set (.wake (.drx _)) | .sleepStart (.drx _) | .waitClock (.drx _) => false
  | .waitCount (.drx _) | .waitArrival (.drx _) | .waitRunning (.drx _) | .waitDone (.drx _) => false
  | .onClock (.drx _) | .onRunning (.drx _) | .onCount (.drx _) | .wakeClock (.drx _) | .wakeStore (.drx _) => false
  | .waitFlag _ | .onFlag _ | .wakeActivity _ | .expireClock _ | .expireLoad _ => false
  | _ => true

/-- While both DRX flags are false, only the end of continuous reception leads
to such a statement. -/
theorem Task.next_awake {t : Task} {cfg : Settings} {link : Link} {inp : Input} {ns : Ns} {ring : PsRing Frame}
    (awake : t.pc.awake = true) (loud : t.pc ≠ .quietActivity) (unset : ∀ d : Drx, ns.get d.mode = false) :
    (t.next cfg link inp ns ring).pc.awake = true := by
  unfold Task.next
  generalize place : t.pc = p at awake loud ⊢
  cases p with
  | quietActivity => exact absurd rfl loud
  | returned =>
    show t.pc.awake = true
    rw [place]
    rfl
  | recv | spin => dsimp only; split <;> rfl
  | sleepLoad m =>
    rcases m with d | _
    · have asleep : ns.get (Sleep.drx d).mode = false := unset d
      simp only [asleep]
      cases d <;> rfl
    · dsimp only
      split <;> rfl
  | clear c | set c => rcases c with _ | ⟨_ | _⟩ | _ <;> first | rfl | simp [Pc.awake] at awake
  | sleepStart m | waitArrival m | waitDone m | wakeClock m | wakeStore m =>
    cases m <;> first | rfl | simp [Pc.awake] at awake
  | waitClock m | waitCount m | waitRunning m | onClock m | onRunning m | onCount m =>
    cases m with
    | drx d => simp [Pc.awake] at awake
    | idle => dsimp only; split <;> rfl
  | head | firstLoad | buildClock | buildRunning | buildLoad | continuousLoad | spinRunning =>
    dsimp only
    split <;> rfl
  | quietClock | quietLoad | waitFlag d | onFlag d | wakeActivity d | expireClock d | expireLoad d =>
    simp [Pc.awake] at awake
  | _ => rfl

theorem Task.store_awake {t : Task} {ns : Ns} (awake : t.pc.awake = true) (unset : ∀ d : Drx, ns.get d.mode = false)
    (d : Drx) : (t.store ns).get d.mode = false := by
  have stays := unset d
  unfold Task.store
  generalize t.pc = p at awake ⊢
  cases p with
  | clear c | set c =>
    rcases c with _ | ⟨_ | _⟩ | _ <;> first
      | (simp [Pc.awake] at awake; done)
      | (cases d <;> exact stays)
  | startIdle | startShort | startLong | startContinuous => cases d <;> first | exact stays | rfl
  | _ => simpa using stays

/-- In every run of the script as it is, with any number of forward tasks, the
link never enters a DRX mode. -/
theorem interactive_never_drx {ι : Type} [DecidableEq ι] {linkspeed : ι → ℚ} {s : Live ι}
    (reach : (interactive none linkspeed).Reach s) : ∀ d : Drx, s.ns.get d.mode = false := by
  have kept : (∀ d : Drx, s.ns.get d.mode = false) ∧ ∀ i, (s.tasks i).pc.awake = true := by
    induction reach with
    | start first =>
      refine ⟨fun d => by rw [first.ns, Ns.get_empty], fun i => ?_⟩
      rw [first.tasks i]
      rfl
    | @step s a before able ih =>
      obtain ⟨unset, awake⟩ := ih
      cases a with
      | task i inp =>
        refine ⟨Task.store_awake (awake i) unset, fun j => ?_⟩
        show ((s.step linkspeed (.task i inp)).tasks j).pc.awake = true
        by_cases same : j = i
        · subst j
          rw [step_task_self]
          unfold LiveTask.next
          split
          · dsimp only
            split <;> rfl
          · have unknown : s.globalNs i = none := interactive_globalNs before i
            simp [unknown, getNsLastPacketTime, Pc.awake]
          · rename_i loud
            exact Task.next_awake (awake i) loud unset
        · rw [step_task_other _ same]
          exact awake j
      | receive i bufs =>
        obtain ⟨rings, unchanged⟩ := @step_receive ι _ linkspeed s i bufs
        simp only [interactive, unchanged]
        exact ⟨unset, awake⟩
      | update cfg thread => exact ⟨unset, awake⟩
  exact kept.1

theorem interactive_never_drx_quiet : ∃ s : Live Unit, (interactive none fun _ => 10000).Reach s ∧
    (s.tasks ()).pc = .quietActivity ∧ ∀ d : Drx, s.ns.get d.mode = false := by
  obtain ⟨s, reach, place, -⟩ := interactive_quiet_run
  exact ⟨s, reach, place, interactive_never_drx reach⟩

end MoonGen
