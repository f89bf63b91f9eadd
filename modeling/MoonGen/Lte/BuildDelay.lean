import MoonGen.Lte.Exclusion

namespace MoonGen

/-- What the log of the tasks shows: a task has left RRC_IDLE by setting
continuous reception, or hands a frame to `sendWithDelayLoss`. -/
inductive LinkEvent where
  | leave (clock : Nat)
  | hand (clock : Nat)
  deriving DecidableEq

section
variable {ι : Type}

def System.event (s : System ι) : Action ι → Option LinkEvent
  | .task i inp =>
    match (s.tasks i).pc with
    | .set (.wake .idle) => some (.leave inp.clock)
    | .send => some (.hand inp.clock)
    | _ => none
  | .receive _ _ => none

/-- No other task is between its load of the connection flag and the end of
its block of continuous reception when a task leaves idle, and none loads the
flag between the two stores of a task that leaves idle. -/
def Protocol.Undisturbed (s : Protocol ι) (i : ι) : Prop :=
  (s.phase i = .set (.wake .idle) → ∀ j, s.phase j ≠ .connect) ∧ (s.phase i = .load → ∀ j, s.phase j ≠ .first)

instance [Fintype ι] (s : Protocol ι) : DecidablePred s.Undisturbed := fun i =>
  inferInstanceAs (Decidable ((s.phase i = .set (.wake .idle) → ∀ j, s.phase j ≠ .connect) ∧
    (s.phase i = .load → ∀ j, s.phase j ≠ .first)))

theorem System.event_leave {s : System ι} {i : ι} {inp : Input} {time : Nat}
    (shows : s.event (.task i inp) = some (.leave time)) : (s.tasks i).pc = .set (.wake .idle) ∧ time = inp.clock := by
  unfold System.event at shows
  dsimp only at shows
  split at shows
  · rename_i pc
    exact ⟨pc, by simpa using shows.symm⟩
  all_goals simp at shows

theorem System.event_hand {s : System ι} {i : ι} {inp : Input} {time : Nat}
    (shows : s.event (.task i inp) = some (.hand time)) : (s.tasks i).pc = .send ∧ time = inp.clock := by
  unfold System.event at shows
  dsimp only at shows
  split at shows
  · simp at shows
  · rename_i pc
    exact ⟨pc, by simpa using shows.symm⟩
  · simp at shows

end

namespace Task

variable {t : Task} {time : Nat}

/-- A task in the connected part of its loop waits there, since the given time
or later. -/
def Quiet (t : Task) (time : Nat) : Prop :=
  t.pc.phase = .connect →
    t.pc = .buildStart ∨ (t.pc = .buildClock ∨ t.pc = .buildRunning ∨ t.pc = .buildLoad) ∧ time ≤ t.lastActivity

theorem Quiet.next {cfg : Settings} {link : Link} {inp : Input} {ns : Ns} {ring : PsRing Frame} (quiet : t.Quiet time)
    (begins : t.pc.phase = .load ∨ t.pc.phase = .connect) (first : ns.firstRccConnected = true)
    (since : time ≤ inp.clock) (soon : inp.clock < time + cfg.rccConnectionBuildDelayTscHzMs) :
    (t.next cfg link inp ns ring).Quiet time := by
  intro connect
  rcases begins with load | stands
  · have pc : t.pc = .firstLoad := by
      cases pc : t.pc <;> simp [pc, Pc.phase] at load ⊢
    simp [Task.next, pc, first]
  · rcases quiet stands with pc | ⟨pc | pc | pc, waited⟩
    · simp [Task.next, pc, since]
    · have early : inp.clock < t.lastActivity + cfg.rccConnectionBuildDelayTscHzMs := by omega
      simp [Task.next, pc, early, waited]
    · cases running : inp.running with
      | false => simp [Task.next, pc, running, Pc.phase] at connect
      | true => simp [Task.next, pc, running, waited]
    · simp [Task.next, pc, first, waited]

theorem store_first (ns : Ns) (loops : t.pc.phase.Loops) (other : t.pc ≠ .buildStore)
    (first : ns.firstRccConnected = true ∨ t.pc.phase = .first) : (t.store ns).firstRccConnected = true := by
  unfold Task.store
  cases pc : t.pc <;> simp_all [Pc.phase, Phase.Loops]

end Task

theorem Phase.Step.connect_cases {p : Phase} (move : p.Step .connect) : p = .load ∨ p = .connect := by
  cases move with
  | load => exact .inl rfl
  | connect => exact .inr rfl

theorem Phase.Step.eq_of_first {p : Phase} (move : p.Step .first) : p = .set (.wake .idle) := by
  cases move
  rfl

section
variable {ι : Type} [DecidableEq ι] {cfg : Settings} {link : ι → Link}

/-- No task is connected while another one is between the two stores. -/
def Protocol.Apart (s : Protocol ι) : Prop := ∀ i j, s.phase i = .first → s.phase j ≠ .connect

theorem Protocol.Apart.step {s after : Protocol ι} {i : ι} (apart : s.Apart) (undisturbed : s.Undisturbed i)
    (step : s.Step i after) : after.Apart := by
  intro a b first connect
  by_cases left : a = i
  · subst left
    have leaves := (first ▸ step.own).eq_of_first
    by_cases right : b = a
    · subst right
      simp [first] at connect
    · rw [step.others b right] at connect
      exact undisturbed.1 leaves b connect
  · rw [step.others a left] at first
    by_cases right : b = i
    · subst right
      rcases (connect ▸ step.own).connect_cases with load | stands
      · exact undisturbed.2 load a first
      · exact apart a b first stands
    · rw [step.others b right] at connect
      exact apart a b first connect

/-- Nobody hands over a frame for the moment: tasks in the connected part wait
since the given time, and others will find the flag. -/
structure System.Waits (s : System ι) (time : Nat) : Prop where
  quiet : ∀ i, (s.tasks i).Quiet time
  first : s.ns.firstRccConnected = true ∨ ∃ i, s.protocol.phase i = .first

variable {s : System ι}

theorem System.Waits.step {time : Nat} {i : ι} {inp : Input} (waits : s.Waits time)
    (loops : (s.protocol.phase i).Loops) (apart : s.protocol.Apart) (undisturbed : s.protocol.Undisturbed i)
    (since : time ≤ inp.clock) (soon : inp.clock < time + cfg.rccConnectionBuildDelayTscHzMs) :
    (s.step cfg link (.task i inp)).Waits time := by
  have protocol := s.step_protocol cfg link i inp
  refine ⟨fun j => ?_, ?_⟩
  · by_cases own : j = i
    · subst own
      rw [System.step_task_self]
      intro connect
      have begins := (connect ▸ Task.next_phase (s.tasks j) cfg (link j) inp s.ns (s.rings (s.ring j))).connect_cases
      have first : s.ns.firstRccConnected = true := by
        rcases waits.first with first | ⟨a, first⟩
        · exact first
        · rcases begins with load | stands
          · exact absurd first (undisturbed.2 load a)
          · exact absurd stands (apart a j first)
      exact (waits.quiet j).next begins first since soon connect
    · rw [System.step_task_other s own]
      exact waits.quiet j
  · have other : (s.tasks i).pc ≠ .buildStore := by
      intro pc
      rcases waits.quiet i (by rw [pc]; rfl) with start | ⟨wait, _⟩
      · simp [pc] at start
      · simp [pc] at wait
    rcases waits.first with first | ⟨a, first⟩
    · exact .inl (Task.store_first s.ns loops other (.inl first))
    · by_cases own : a = i
      · subst own
        exact .inl (Task.store_first s.ns loops other (.inr first))
      · exact .inr ⟨a, (protocol.others a own).trans first⟩

/-- A task that leaves idle undisturbed makes everybody wait. -/
theorem System.waits_of_leave {i : ι} {inp : Input} (leaves : (s.tasks i).pc = .set (.wake .idle))
    (undisturbed : s.protocol.Undisturbed i) : (s.step cfg link (.task i inp)).Waits inp.clock := by
  have phase : s.protocol.phase i = .set (.wake .idle) := System.protocol_phase leaves
  have protocol := s.step_protocol cfg link i inp
  have first : (s.step cfg link (.task i inp)).protocol.phase i = .first := by
    simp only [System.protocol, System.step_task_self, Task.next, leaves]
    rfl
  refine ⟨fun j connect => ?_, .inr ⟨i, first⟩⟩
  have apart : ∀ j, (s.step cfg link (.task i inp)).protocol.phase j ≠ .connect :=
    protocol.forall_phase (P := (· ≠ .connect)) (by simp [first]) fun j _ => undisturbed.1 phase j
  exact absurd connect (apart j)

/-- A frame is handed over only when the delay has passed since every earlier
leave. -/
def LinkEvent.Delayed (delay : Nat) : LinkEvent → LinkEvent → Prop
  | .leave since, .hand time => since + delay ≤ time
  | _, _ => True

structure BuildKept (cfg : Settings) (s : System ι) (log : List LinkEvent) : Prop where
  loops : ∀ i, (s.protocol.phase i).Loops
  apart : s.protocol.Apart
  past : ∀ time, .leave time ∈ log → time ≤ s.now
  waits : ∀ time, .leave time ∈ log → s.now < time + cfg.rccConnectionBuildDelayTscHzMs → s.Waits time
  delayed : log.Pairwise (LinkEvent.Delayed cfg.rccConnectionBuildDelayTscHzMs)

variable {log : List LinkEvent}

omit [DecidableEq ι] in
theorem BuildKept.hand {i : ι} {clock time : Nat} (kept : BuildKept cfg s log)
    (able : s.now ≤ clock) (sends : (s.tasks i).pc = .send) (left : .leave time ∈ log) :
    time + cfg.rccConnectionBuildDelayTscHzMs ≤ clock := by
  by_contra early
  have waits := kept.waits time left (by omega)
  rcases waits.quiet i (by rw [sends]; rfl) with start | ⟨wait, _⟩
  · simp [sends] at start
  · simp [sends] at wait

theorem BuildKept.step {i : ι} {inp : Input} (kept : BuildKept cfg s log)
    (able : s.now ≤ inp.clock) (undisturbed : s.protocol.Undisturbed i) :
    BuildKept cfg (s.step cfg link (.task i inp)) (log ++ (s.event (.task i inp)).toList) := by
  have protocol := s.step_protocol cfg link i inp
  refine ⟨protocol.loops kept.loops, kept.apart.step undisturbed protocol, ?_, ?_, ?_⟩
  · intro time left
    rcases List.mem_append.mp left with old | new
    · exact (kept.past time old).trans able
    · exact (System.event_leave (Option.mem_toList.mp new)).2.le
  · intro time left soon
    rw [System.step_task_now] at soon
    rcases List.mem_append.mp left with old | new
    · have waits := kept.waits time old (by omega)
      exact waits.step (kept.loops i) kept.apart undisturbed ((kept.past time old).trans able) soon
    · obtain ⟨leaves, now⟩ := System.event_leave (Option.mem_toList.mp new)
      exact now ▸ System.waits_of_leave leaves undisturbed
  · refine List.pairwise_append.mpr ⟨kept.delayed, by cases s.event (.task i inp) <;> simp, ?_⟩
    intro a left b right
    match a, b with
    | .leave since, .hand time =>
      obtain ⟨sends, now⟩ := System.event_hand (Option.mem_toList.mp right)
      exact now ▸ kept.hand able sends left
    | .leave _, .leave _ | .hand _, _ => trivial

theorem BuildKept.receive (kept : BuildKept cfg s log) (link : ι → Link) (r : Bool)
    (bufs : List Frame) :
    BuildKept cfg (s.step cfg link (.receive r bufs)) (log ++ (s.event (.receive r bufs)).toList) := by
  have protocol := s.receive_protocol cfg link r bufs
  have same : log ++ (s.event (.receive r bufs)).toList = log := List.append_nil log
  rw [same]
  refine ⟨protocol ▸ kept.loops, protocol ▸ kept.apart, ?_, ?_, kept.delayed⟩
  · simpa only [System.step_receive_now] using kept.past
  · intro time left soon
    rw [System.step_receive_now] at soon
    have waits := kept.waits time left soon
    exact ⟨by simpa only [System.step_receive_tasks] using waits.quiet, by
      simpa only [System.step_receive_ns, protocol] using waits.first⟩

/-- Between a store that leaves RRC_IDLE and any later hand-over of a frame
lies the connection delay, in every run of tasks past their start-up in which
no task is disturbed in leaving. -/
theorem lte_build_delay {s : System ι × List LinkEvent}
    (reach : (((forwardFrom System.Started cfg link).guarded fun s a => a.Meets s.protocol.Undisturbed).logged
      System.event).Reach s) :
    s.2.Pairwise (LinkEvent.Delayed cfg.rccConnectionBuildDelayTscHzMs) := by
  have kept : BuildKept cfg s.1 s.2 := by
    refine Machine.Reach.invariant (I := fun s => BuildKept cfg s.1 s.2) (fun s started => ?_) (fun s a kept able => ?_)
      reach
    · have heads : ∀ j, s.1.protocol.phase j = .head := fun j => System.protocol_phase (started.1.head j)
      rw [started.2]
      refine ⟨fun j => by rw [heads]; trivial, fun i j => by simp [heads], by simp, by simp, .nil⟩
    · cases a with
      | task i inp => exact kept.step able.1 able.2
      | receive r bufs => exact kept.receive link r bufs
  exact kept.delayed

end

theorem lte_build_delay_pair : ∃ s : System Bool × List LinkEvent,
    (((forwardFrom System.Started (.default 1) fun _ => .default).guarded
      fun s a => a.Meets s.protocol.Undisturbed).logged System.event).Reach s ∧
      s.2 = [.leave 60, .hand 130] ∧ s.2.Pairwise (LinkEvent.Delayed 70) := by
  have run : (((forwardFrom System.Started (.default 1) fun _ => .default).guarded
      fun s a => a.Meets s.protocol.Undisturbed).logged System.event).leadsTo
      (fun s => s.2 = [.leave 60, .hand 130]) (System.looping id, []) (.receive true [⟨1, 60, 0⟩] ::
        schedule (List.replicate 7 (true, 0) ++ List.replicate 13 (true, 60) ++ List.replicate 7 (true, 130))) = true := by
    decide +kernel
  obtain ⟨s, reach, log⟩ := Machine.reach_of_leadsTo run (.start ⟨System.looping_started _, rfl⟩)
  exact ⟨s, reach, of_decide_eq_true log, lte_build_delay reach⟩

/-- The second task has loaded the connection flag, still false, when the first
one leaves RRC_IDLE. It finds continuous reception set and hands over its frame
at once, although the connection takes 70 cycles to build. -/
theorem lte_frame_before_connection : ∃ s : System Bool × List LinkEvent,
    ((forwardFrom System.Started (.default 1) fun _ => .default).logged System.event).Reach s ∧
      s.2 = [.leave 60, .hand 60] ∧ (Settings.default 1).rccConnectionBuildDelayTscHzMs = 70 := by
  have run : ((forwardFrom System.Started (.default 1) fun _ => .default).logged System.event).leadsTo
      (fun s => s.2 = [.leave 60, .hand 60]) (System.looping id, []) (.receive true [⟨1, 60, 0⟩] ::
        .receive false [⟨2, 60, 0⟩] :: schedule (List.replicate 7 (true, 0) ++ List.replicate 5 (true, 60) ++
          List.replicate 2 (false, 60) ++ List.replicate 2 (true, 60) ++ List.replicate 4 (false, 60))) = true := by
    decide +kernel
  obtain ⟨s, reach, log⟩ := Machine.reach_of_leadsTo run (.start ⟨System.looping_started _, rfl⟩)
  exact ⟨s, reach, of_decide_eq_true log, rfl⟩

end MoonGen
