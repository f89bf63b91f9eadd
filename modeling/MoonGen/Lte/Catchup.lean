import Mathlib.Data.Fintype.Basic
import MoonGen.Lte.Interactive

namespace MoonGen

/-- Catch-up mode is only entered while the catch-up rate is positive. -/
theorem Task.next_catchupMode {t : Task} {cfg : Settings} {link : Link} {inp : Input} {ns : Ns} {ring : PsRing Frame}
    (after : (t.next cfg link inp ns ring).catchupMode = true) : t.catchupMode = true ∨ 0 < link.catchuprate := by
  unfold Task.next at after
  generalize t.pc = p at after
  cases p with
  | recv =>
    dsimp only at after
    split at after
    · exact .inl after
    · simp only [Task.accept, Bool.or_eq_true, Bool.and_eq_true, decide_eq_true_eq] at after
      exact after.imp_right And.right
  | spin =>
    dsimp only at after
    split at after
    · simp at after
    · exact .inl after
  | _ => exact .inl after

theorem LiveTask.next_catchupMode {t : LiveTask} {cfg : Settings} {link : Link} {inp : Input} {ns : Ns}
    {globalNs : Option Ns} {ring : PsRing Frame}
    (after : (t.next cfg link inp ns globalNs ring).catchupMode = true) :
    t.catchupMode = true ∨ 0 < link.catchuprate := by
  unfold LiveTask.next at after
  split at after
  · exact .inl after
  · exact .inl after
  · exact Task.next_catchupMode after

namespace Live

variable {ι : Type} [DecidableEq ι]

/-- An update sets positive rates, and catch-up rates that are not negative. -/
def RatesOk (_ : Live ι) : LiveAction ι → Prop
  | .update _ thread => ∀ i, 0 < (thread i).rate ∧ 0 ≤ (thread i).catchuprate
  | _ => True

/-- No update takes the catch-up rate away from a task in catch-up mode. -/
def KeepsCatchup (s : Live ι) : LiveAction ι → Prop
  | .update _ thread => ∀ i, (s.tasks i).catchupMode = true → 0 < (thread i).catchuprate
  | _ => True

/-- A task in catch-up mode has a positive rate to catch up with. -/
def Catches (s : Live ι) : Prop := ∀ i, (s.tasks i).catchupMode = true → 0 < (s.thread i).catchuprate

theorem Catches.step {s : Live ι} {linkspeed : ι → ℚ} {a : LiveAction ι} (catches : s.Catches)
    (keeps : s.KeepsCatchup a) : (s.step linkspeed a).Catches := by
  cases a with
  | task i inp =>
    intro j mode
    by_cases same : j = i
    · subst j
      rw [step_task_self] at mode
      rcases LiveTask.next_catchupMode mode with before | positive
      · exact catches i before
      · exact positive
    · rw [step_task_other _ same] at mode
      exact catches j mode
  | receive r bufs =>
    obtain ⟨rings, unchanged⟩ := @step_receive ι _ linkspeed s r bufs
    rw [unchanged]
    exact catches
  | update cfg thread => exact keeps

instance (s : Live ι) : (a : LiveAction ι) → Decidable (s.Able a)
  | .task i inp => inferInstanceAs (Decidable (s.now ≤ inp.clock ∧ (0 < inp.closses → 0 < (s.thread i).clossrate)))
  | .receive r bufs => inferInstanceAs (Decidable (psringEnqueueBurst (s.rings r) bufs).isSome)
  | .update cfg _ => inferInstanceAs (Decidable (cfg.tscHzMs = s.cfg.tscHzMs))

instance [Fintype ι] (s : Live ι) : (a : LiveAction ι) → Decidable (s.RatesOk a)
  | .task _ _ | .receive _ _ => inferInstanceAs (Decidable True)
  | .update _ thread => inferInstanceAs (Decidable (∀ i, 0 < (thread i).rate ∧ 0 ≤ (thread i).catchuprate))

instance [Fintype ι] (s : Live ι) : (a : LiveAction ι) → Decidable (s.KeepsCatchup a)
  | .task _ _ | .receive _ _ => inferInstanceAs (Decidable True)
  | .update _ thread => inferInstanceAs
      (Decidable (∀ i, (s.tasks i).catchupMode = true → 0 < (thread i).catchuprate))

end Live

instance {ι : Type} [DecidableEq ι] (globalNs : Option Ns) (linkspeed : ι → ℚ) (s : Live ι)
    (a : LiveAction ι) : Decidable ((interactive globalNs linkspeed).enabled s a) :=
  inferInstanceAs (Decidable (s.Able a))

/-- Whenever a task hands over a frame in catch-up mode, and so divides the
link speed by the catch-up rate, that rate is positive, in every run in which
no update sets it to zero while the task is in catch-up mode. -/
theorem interactive_catchup_positive {ι : Type} [DecidableEq ι] {globalNs : Option Ns} {linkspeed : ι → ℚ} {s : Live ι}
    (reach : ((interactive globalNs linkspeed).guarded Live.KeepsCatchup).Reach s) {i : ι} {clock : Nat} {sent : Sent}
    (sends : (s.tasks i).sends ((s.thread i).link (linkspeed i)) clock = some sent)
    (mode : (s.tasks i).catchupMode = true) :
    sent.delay = ((sent.frame.pktLen + 24 : Nat) : ℚ) * (linkspeed i / (s.thread i).catchuprate - 1) ∧
      0 < (s.thread i).catchuprate := by
  have catches : s.Catches := by
    refine reach.invariant (fun s first j entered => ?_) fun s a catches able => catches.step able.2
    rw [first.tasks j] at entered
    simp [LiveTask.init, Task.init] at entered
  refine ⟨?_, catches i mode⟩
  unfold Task.sends at sends
  split at sends
  · obtain ⟨buf, _, rfl⟩ := Option.map_eq_some_iff.mp sends
    simp [mode, ThreadParams.link]
  · simp at sends

namespace Live

/-- A link of 100 Mbit/s that loses every other frame and catches up at 500. -/
def catching : ThreadParams where
  rate := 100
  latency := 0
  xlatency := 0
  lossrate := 0
  clossrate := 1 / 2
  catchuprate := 500

/-- One task before its first statement, with an empty ring. -/
def fresh : Live Unit where
  ns := .empty
  cfg := .default 1
  thread _ := catching
  globalNs _ := none
  now := 0
  tasks _ := .init
  ring _ := true
  rings := (System.fresh fun _ : Unit => true).rings

theorem fresh_initial : fresh.Initial none := ⟨rfl, fun _ => rfl, fun _ => rfl⟩

/-- Steps of the task, each with the clock and the losses drawn. -/
def steps (clock closses : Nat) (n : Nat) : List (LiveAction Unit) :=
  List.replicate n (.task () { clock, running := true, extraDelay := 0, closses })

/-- The task starts up, finds two frames at the end of its first idle cycle,
builds the connection, and draws a loss for the first frame. -/
def firstFrame : List (LiveAction Unit) :=
  .receive true [⟨1, 60, 0⟩, ⟨2, 60, 0⟩] :: (steps 0 0 14 ++ steps 60 0 13 ++ steps 130 0 4 ++ steps 130 1 1)

/-- It sends that frame late and returns to the head of its loop. -/
def betweenFrames : List (LiveAction Unit) := steps 130 0 9

/-- It receives the second frame and finds that its time has passed as well. -/
def secondFrame : List (LiveAction Unit) := steps 130 0 5

def sendsCatchingUp (s : Live Unit) : Bool :=
  (s.tasks ()).pc = .send && (s.tasks ()).catchupMode && (s.tasks ()).bufs.isSome

end Live

theorem interactive_catchup_positive_second : ∃ s : Live Unit,
    ((interactive none fun _ => 10000).guarded Live.KeepsCatchup).Reach s ∧ s.sendsCatchingUp = true ∧
      0 < (s.thread ()).catchuprate := by
  have run : ((interactive none fun _ => 10000).guarded Live.KeepsCatchup).leadsTo Live.sendsCatchingUp Live.fresh
      (Live.firstFrame ++ Live.betweenFrames ++
        .update (.default 1) (fun _ => { Live.catching with catchuprate := 200 }) :: Live.secondFrame) = true := by
    decide +kernel
  obtain ⟨s, reach, sending⟩ := Machine.reach_of_leadsTo run (.start Live.fresh_initial)
  simp only [Live.sendsCatchingUp, Bool.and_eq_true, decide_eq_true_eq] at sending
  obtain ⟨⟨pc, mode⟩, holds⟩ := sending
  obtain ⟨buf, held⟩ := Option.isSome_iff_exists.mp holds
  have sends : ((s.tasks ()).sends ((s.thread ()).link 10000) 0).isSome := by simp [Task.sends, pc, held]
  obtain ⟨sent, sends⟩ := Option.isSome_iff_exists.mp sends
  exact ⟨s, reach, by simp [Live.sendsCatchingUp, pc, mode, held], (interactive_catchup_positive reach sends mode).2⟩

/-- An update between the two frames sets the catch-up rate to zero, and the
second frame is still sent in the catch-up mode that the first one entered. -/
theorem interactive_catchup_zero : ∃ s : Live Unit,
    ((interactive none fun _ => 10000).guarded Live.RatesOk).Reach s ∧
      s.sendsCatchingUp = true ∧ (s.thread ()).catchuprate = 0 := by
  have run : ((interactive none fun _ => 10000).guarded Live.RatesOk).leadsTo
      (fun s => s.sendsCatchingUp && decide ((s.thread ()).catchuprate = 0)) Live.fresh
      (Live.firstFrame ++ Live.betweenFrames ++
        .update (.default 1) (fun _ => { Live.catching with catchuprate := 0 }) :: Live.secondFrame) = true := by
    decide +kernel
  obtain ⟨s, reach, seen⟩ := Machine.reach_of_leadsTo run (.start Live.fresh_initial)
  simp only [Bool.and_eq_true, decide_eq_true_eq] at seen
  exact ⟨s, reach, seen⟩

end MoonGen
