import Mathlib.Data.Fintype.Card
import MoonGen.Lib.Fair

namespace MoonGen

open Function

/-- A task and its one call of `wait`: not yet made, asleep in the condition
variable, notified there, or returned. -/
inductive WaitPc where
  | before
  | sleeping
  | notified
  | returned
  deriving DecidableEq

/-- A barrier with the tasks that use it. -/
structure Barrier (ι : Type) where
  n : UInt64
  tasks : ι → WaitPc

/-- A task runs up to its sleep or its return, or it starts a new round. A wake-up
is spurious when the task was not notified. -/
inductive BarrierAct (ι : Type) where
  | run (i : ι)
  | reinit (i : ι) (m : UInt64)
  deriving DecidableEq

namespace Barrier

variable {ι : Type} [DecidableEq ι]

def makeBarrier (n : UInt64) : Barrier ι := ⟨n, fun _ => .before⟩

def notifyAll (tasks : ι → WaitPc) : ι → WaitPc :=
  fun i => if tasks i = .sleeping then .notified else tasks i

/-- `barrier_wait` while it holds the mutex: from its call on, or from a wake-up on,
which tests the predicate again. -/
def barrierWait (b : Barrier ι) (i : ι) : Barrier ι :=
  match b.tasks i with
  | .before =>
    if b.n - 1 = 0 then ⟨b.n - 1, update (notifyAll b.tasks) i .returned⟩
    else ⟨b.n - 1, update b.tasks i .sleeping⟩
  | .sleeping | .notified =>
    { b with tasks := update b.tasks i (if b.n = 0 then .returned else .sleeping) }
  | .returned => b

def barrierReinit (b : Barrier ι) (m : UInt64) : Barrier ι := { b with n := m }

def step (b : Barrier ι) : BarrierAct ι → Barrier ι
  | .run i => b.barrierWait i
  | .reinit _ m => b.barrierReinit m

/-- Each task calls `wait` once. Behind its return it may call `reinit`. -/
def Able (b : Barrier ι) : BarrierAct ι → Prop
  | .run i => b.tasks i ≠ .returned
  | .reinit i m => b.tasks i = .returned ∧ m ≠ 0

instance (b : Barrier ι) : (a : BarrierAct ι) → Decidable (b.Able a)
  | .run i => inferInstanceAs (Decidable (b.tasks i ≠ .returned))
  | .reinit i m => inferInstanceAs (Decidable (b.tasks i = .returned ∧ m ≠ 0))

def machine (ι : Type) [DecidableEq ι] (n : UInt64) : Machine (Barrier ι) (BarrierAct ι) where
  start b := b = makeBarrier n
  enabled := Able
  next := step

instance (n : UInt64) (b : Barrier ι) (a : BarrierAct ι) : Decidable ((machine ι n).enabled b a) :=
  inferInstanceAs (Decidable (b.Able a))

/-- A task has something to do: it is to call `wait`, or it was notified there. -/
def Ready (i : ι) (b : Barrier ι) : Prop := b.tasks i = .before ∨ b.tasks i = .notified

/-- Fair scheduling: a task that is ready is not passed over forever. -/
def Fair {n : UInt64} (r : (machine ι n).Run) : Prop := ∀ i, r.Fair (Ready i) (.run i)

/-- No task is waiting, as the documentation of `reinit` demands. -/
def AllReturned (b : Barrier ι) : Prop := ∀ i, b.tasks i = .returned

/-- The tasks that `n` stands for. -/
def missing [Fintype ι] (b : Barrier ι) : Finset ι := Finset.univ.filter fun i => b.tasks i = .before

/-- Not all tasks have come: the others sleep. -/
structure Gathering [Fintype ι] (b : Barrier ι) : Prop where
  counted : b.n.toNat = b.missing.card
  nonzero : b.n ≠ 0
  asleep : ∀ i, b.tasks i ≠ .before → b.tasks i = .sleeping

/-- All tasks have come, and those that have not returned are notified. -/
structure Opened (b : Barrier ι) : Prop where
  zero : b.n = 0
  awake : ∀ i, b.tasks i ≠ .returned → b.tasks i = .notified

/-- A new round has begun while a task still waits for the old one. -/
structure Stuck (j : ι) (b : Barrier ι) : Prop where
  nonzero : b.n ≠ 0
  come : ∀ i, b.tasks i ≠ .before
  waits : b.tasks j ≠ .returned

/-- Where a barrier stands with a round. -/
inductive Stage [Fintype ι] (b : Barrier ι) : Prop
  | gathering : b.Gathering → Stage b
  | opened : b.Opened → Stage b
  | closed : b.AllReturned → Stage b
  | stuck (j : ι) : b.Stuck j → Stage b

section
variable {b : Barrier ι} {i j : ι}

/-- What a task does changes another one only by waking it. -/
theorem tasks_barrierWait_of_ne (other : j ≠ i) : (b.barrierWait i).tasks j = b.tasks j ∨
    b.tasks j = .sleeping ∧ (b.barrierWait i).tasks j = .notified := by
  unfold barrierWait
  split
  · split
    · dsimp only
      rw [update_of_ne other, notifyAll]
      by_cases asleep : b.tasks j = .sleeping
      · exact .inr ⟨asleep, if_pos asleep⟩
      · exact .inl (if_neg asleep)
    · exact .inl (update_of_ne other _ _)
  · exact .inl (update_of_ne other _ _)
  · exact .inl (update_of_ne other _ _)
  · exact .inl rfl

theorem barrierWait_of_waiting (come : b.tasks i ≠ .before) (waits : b.tasks i ≠ .returned) : b.barrierWait i =
    { b with tasks := update b.tasks i (if b.n = 0 then .returned else .sleeping) } := by
  unfold barrierWait
  split
  · contradiction
  · rfl
  · rfl
  · contradiction

theorem barrierWait_ne_before (b : Barrier ι) (i : ι) : (b.barrierWait i).tasks i ≠ .before := by
  by_cases before : b.tasks i = .before
  · simp only [barrierWait, before]
    split <;> simp
  · by_cases returned : b.tasks i = .returned
    · simp [barrierWait, returned]
    · rw [barrierWait_of_waiting before returned]
      dsimp only
      rw [update_self]
      split <;> decide

variable {n : UInt64} {a : BarrierAct ι}

/-- Nobody is before its call again. -/
theorem come_step (come : b.tasks j ≠ .before) : ((machine ι n).next b a).tasks j ≠ .before := by
  cases a with
  | reinit i m => exact come
  | run i =>
    change (b.barrierWait i).tasks j ≠ .before
    by_cases same : j = i
    · rw [same]
      exact b.barrierWait_ne_before i
    · rcases tasks_barrierWait_of_ne same with kept | ⟨-, woken⟩
      · rw [kept]
        exact come
      · rw [woken]
        decide

theorem returned_step (returned : b.tasks j = .returned)
    (able : (machine ι n).enabled b a) : ((machine ι n).next b a).tasks j = .returned := by
  cases a with
  | reinit i m => exact returned
  | run i =>
    have other : j ≠ i := by
      rintro rfl
      exact able returned
    rcases tasks_barrierWait_of_ne (b := b) other with kept | ⟨asleep, -⟩
    · exact kept.trans returned
    · rw [returned] at asleep
      cases asleep

theorem ready_step (other : a ≠ .run i) (ready : Ready i b) : Ready i ((machine ι n).next b a) := by
  cases a with
  | reinit k m => exact ready
  | run k =>
    have distinct : i ≠ k := fun same => other (by rw [same])
    unfold Ready
    rcases tasks_barrierWait_of_ne (b := b) distinct with kept | ⟨asleep, -⟩
    · change (b.barrierWait k).tasks i = _ ∨ (b.barrierWait k).tasks i = _
      rw [kept]
      exact ready
    · rcases ready with before | notified
      · rw [before] at asleep
        cases asleep
      · rw [notified] at asleep
        cases asleep

theorem Opened.wait (opened : b.Opened) (waits : b.tasks i ≠ .returned) : (b.barrierWait i).Opened := by
  obtain ⟨zero, awake⟩ := opened
  rw [barrierWait_of_waiting (by rw [awake i waits]; decide) waits]
  refine ⟨zero, fun j other => ?_⟩
  dsimp only at other ⊢
  by_cases same : j = i
  · subst same
    rw [update_self, if_pos zero] at other
    contradiction
  · rw [update_of_ne same] at other ⊢
    exact awake j other

/-- A task that has missed its round is never let go. -/
theorem Stuck.step (stuck : b.Stuck j) (able : (machine ι n).enabled b a) : ((machine ι n).next b a).Stuck j := by
  have come (i : ι) : ((machine ι n).next b a).tasks i ≠ .before := come_step (stuck.come i)
  obtain ⟨nonzero, all, waits⟩ := stuck
  cases a with
  | reinit i m => exact ⟨able.2, all, waits⟩
  | run i =>
    have next : (machine ι n).next b (.run i) = _ := barrierWait_of_waiting (all i) able
    rw [next, if_neg nonzero] at come ⊢
    refine ⟨nonzero, come, ?_⟩
    by_cases same : j = i
    · rw [same]
      dsimp only
      rw [update_self]
      decide
    · dsimp only
      rw [update_of_ne same]
      exact waits

variable [Fintype ι]

omit [DecidableEq ι] in
theorem mem_missing : i ∈ b.missing ↔ b.tasks i = .before := by
  simp [missing]

theorem Gathering.counted_call (gathering : b.Gathering) (before : b.tasks i = .before) :
    (b.n - 1).toNat = (b.missing.erase i).card := by
  have positive : 1 ≤ b.n := by
    rw [UInt64.le_iff_toNat_le]
    exact Nat.pos_of_ne_zero fun zero => gathering.nonzero (UInt64.toNat_inj.mp zero)
  rw [UInt64.toNat_sub_of_le _ _ positive, gathering.counted, Finset.card_erase_of_mem (mem_missing.mpr before)]
  rfl

/-- The last call finds all other tasks asleep. -/
theorem Gathering.last (gathering : b.Gathering) (before : b.tasks i = .before) (zero : b.n - 1 = 0) (other : j ≠ i) :
    b.tasks j = .sleeping := by
  refine gathering.asleep j fun late => ?_
  have remaining := gathering.counted_call before
  rw [zero, eq_comm, UInt64.toNat_zero, Finset.card_eq_zero] at remaining
  have left : j ∈ b.missing.erase i := Finset.mem_erase.mpr ⟨other, mem_missing.mpr late⟩
  rw [remaining] at left
  exact absurd left (Finset.notMem_empty j)

theorem Gathering.more (gathering : b.Gathering) (before : b.tasks i = .before) (more : b.n - 1 ≠ 0) :
    Gathering ⟨b.n - 1, update b.tasks i .sleeping⟩ := by
  refine ⟨?_, more, fun j come => ?_⟩
  · have erased : missing ⟨b.n - 1, update b.tasks i .sleeping⟩ = b.missing.erase i := by
      ext j
      by_cases same : j = i
      · simp [missing, same]
      · simp [missing, same]
    rw [erased]
    exact gathering.counted_call before
  · dsimp only at come ⊢
    by_cases same : j = i
    · rw [same, update_self]
    · rw [update_of_ne same] at come ⊢
      exact gathering.asleep j come

/-- A call counts its task, and the last one opens the barrier. -/
theorem Gathering.wait (gathering : b.Gathering) (i : ι) : (b.barrierWait i).Gathering ∨ (b.barrierWait i).Opened := by
  by_cases before : b.tasks i = .before
  · simp only [barrierWait, before]
    split
    · rename_i zero
      refine .inr ⟨zero, fun j waits => ?_⟩
      dsimp only at waits ⊢
      have other : j ≠ i := by
        rintro rfl
        exact waits (update_self ..)
      rw [update_of_ne other, notifyAll, if_pos (gathering.last before zero other)]
    · rename_i more
      exact .inl (gathering.more before more)
  · -- a task that sleeps falls asleep again
    have sleeping := gathering.asleep i before
    have idle : b.barrierWait i = b := by
      rw [barrierWait_of_waiting before (by rw [sleeping]; decide), if_neg gathering.nonzero, ← sleeping,
        update_eq_self]
    rw [idle]
    exact .inl gathering

theorem Stage.step (stage : b.Stage) (able : (machine ι n).enabled b a) : ((machine ι n).next b a).Stage := by
  cases stage with
  | gathering gathering =>
    cases a with
    | run i => exact (gathering.wait i).elim .gathering .opened
    | reinit i m =>
      have asleep := gathering.asleep i (by rw [able.1]; decide)
      rw [able.1] at asleep
      cases asleep
  | opened opened =>
    cases a with
    | run i => exact .opened (opened.wait able)
    | reinit i m =>
      by_cases all : b.AllReturned
      · exact .closed all
      · obtain ⟨j, waits⟩ := not_forall.mp all
        refine .stuck j ⟨able.2, fun k (before : b.tasks k = .before) => ?_, waits⟩
        have awake := opened.awake k (by rw [before]; decide)
        rw [before] at awake
        cases awake
  | closed all =>
    cases a with
    | run i => exact absurd (all i) able
    | reinit i m => exact .closed all
  | stuck j stuck => exact .stuck j (stuck.step able)

omit [DecidableEq ι] in
theorem Gathering.start (all : Fintype.card ι = n.toNat) (positive : 1 ≤ n) :
    (makeBarrier n : Barrier ι).Gathering := by
  refine ⟨?_, ?_, fun i come => absurd rfl come⟩
  · have every : (makeBarrier n : Barrier ι).missing = Finset.univ := Finset.filter_true_of_mem fun i _ => rfl
    rw [every, Finset.card_univ, all]
    rfl
  · rintro rfl
    exact absurd positive (by decide)

theorem stage_of_reach (all : Fintype.card ι = n.toNat) (positive : 1 ≤ n)
    (reach : (machine ι n).Reach b) : b.Stage := by
  induction reach with
  | start first =>
    obtain rfl := first
    exact .gathering (.start all positive)
  | step _ able ih => exact ih.step able

omit [DecidableEq ι] in
/-- Nobody has returned while a task is still to come. -/
theorem Stage.come (stage : b.Stage) (returned : b.tasks i = .returned) (j : ι) : b.tasks j ≠ .before := by
  intro before
  cases stage with
  | gathering gathering =>
    have asleep := gathering.asleep i (by rw [returned]; decide)
    rw [returned] at asleep
    cases asleep
  | opened opened =>
    have awake := opened.awake j (by rw [before]; decide)
    rw [before] at awake
    cases awake
  | closed all =>
    have other := all j
    rw [before] at other
    cases other
  | stuck k stuck => exact stuck.come j before

/-- A barrier that no task has missed. -/
def Proper (b : Barrier ι) : Prop := b.Gathering ∨ b.Opened ∨ b.AllReturned

theorem Proper.step (proper : b.Proper) (able : (machine ι n).enabled b a)
    (late : ∀ i m, a = .reinit i m → b.AllReturned) : ((machine ι n).next b a).Proper := by
  cases a with
  | reinit i m => exact .inr (.inr (late i m rfl))
  | run i =>
    rcases proper with gathering | opened | closed
    · exact (gathering.wait i).imp id .inl
    · exact .inr (.inl (opened.wait able))
    · exact absurd (closed i) able

/-- In a fair run all tasks come. -/
theorem Fair.come {r : (machine ι n).Run} (fair : Fair r) : ∃ t, ∀ i, (r.state t).tasks i ≠ .before := by
  refine r.eventually_all (P := fun (i : ι) (b : Barrier ι) => b.tasks i ≠ .before)
    (fun i s a come _ => come_step come) fun i => ?_
  by_contra never
  have ready : Ready i (r.state 0) := .inl (not_not.mp fun come => never ⟨0, come⟩)
  obtain ⟨t, -, act, -⟩ := (fair i).progress (fun s a other ready _ => ready_step other ready) ready
  refine never ⟨t + 1, ?_⟩
  rw [(r.taken t _ act).2]
  exact (r.state t).barrierWait_ne_before i

/-- Once all tasks have come to a barrier that stays proper, each of them returns. -/
theorem Fair.returns {r : (machine ι n).Run} (fair : Fair r) {t : Nat}
    (come : ∀ i, (r.state t).tasks i ≠ .before) (proper : ∀ u, (r.state u).Proper) (i : ι) :
    ∃ u, (r.state u).tasks i = .returned := by
  have after : ∀ u, t ≤ u → ∀ j, (r.state u).tasks j ≠ .before := fun u later j =>
    r.lasts (P := fun b => b.tasks j ≠ .before) (fun s a come _ => come_step come) later (come j)
  have opened : ∀ u, t ≤ u → (r.state u).tasks i ≠ .returned → (r.state u).Opened := by
    intro u later waits
    rcases proper u with gathering | opened | closed
    · have complete : (r.state u).missing = ∅ := Finset.filter_false_of_mem fun j _ => after u later j
      have zero := gathering.counted
      rw [complete, Finset.card_empty] at zero
      exact absurd (UInt64.toNat_inj.mp zero) gathering.nonzero
    · exact opened
    · exact absurd (closed i) waits
  by_cases returned : (r.state t).tasks i = .returned
  · exact ⟨t, returned⟩
  · have ready : Ready i (r.state t) := .inr ((opened t le_rfl returned).awake i returned)
    obtain ⟨u, later, act, ready⟩ := (fair i).progress (fun s a other ready _ => ready_step other ready) ready
    obtain ⟨able, next⟩ := r.taken u _ act
    refine ⟨u + 1, ?_⟩
    have wait : (machine ι n).next (r.state u) (.run i) = _ := barrierWait_of_waiting (after u later i) able
    rw [next, wait, if_pos (opened u later able).zero]
    exact update_self ..

end

variable [Fintype ι]

/-- No task returns before all of them have come. In a fair run all tasks return
exactly when a new round is only begun after the last return. -/
theorem barrier_rounds {n : UInt64} (all : Fintype.card ι = n.toNat) (positive : 1 ≤ n) (r : (machine ι n).Run) :
    (∀ t i, (r.state t).tasks i = .returned → ∀ j, (r.state t).tasks j ≠ .before) ∧
    (Fair r → ((∀ i, ∃ t, (r.state t).tasks i = .returned) ↔
      ∀ t i m, r.act t = some (.reinit i m) → (r.state t).AllReturned)) := by
  have stage : ∀ t, (r.state t).Stage := fun t => stage_of_reach all positive (r.reach t)
  refine ⟨fun t i returned => (stage t).come returned, fun fair => ⟨?_, ?_⟩⟩
  · intro returns t i m act
    by_contra early
    obtain ⟨j, waits⟩ := not_forall.mp early
    obtain ⟨able, next⟩ := r.taken t _ act
    have stuck : (r.state (t + 1)).Stuck j := by
      rw [next]
      exact ⟨able.2, (stage t).come able.1, waits⟩
    obtain ⟨u, returned⟩ := returns j
    rcases Nat.le_total u t with earlier | later
    · exact waits (r.lasts (fun s a returned able => returned_step returned able) earlier returned)
    · have last := r.lasts (fun s a returned able => returned_step returned able) (Nat.le_succ u) returned
      exact (r.lasts (fun s a stuck able => stuck.step able) (Nat.succ_le_succ later) stuck).waits last
  · intro late
    have first : (r.state 0).Proper := by
      rw [show r.state 0 = makeBarrier n from r.start]
      exact .inl (.start all positive)
    have proper : ∀ t, (r.state t).Proper := by
      intro t
      refine r.lasts_of_taken (fun u a _ act proper => ?_) (Nat.zero_le t) first
      refine proper.step (r.taken u a act).1 fun i m same => late u i m ?_
      rw [act, same]
    obtain ⟨t, come⟩ := fair.come
    exact fun i => fair.returns come proper i

/-- Two tasks on a barrier for two, and their calls with one spurious wake-up. -/
def twoTasks : List (BarrierAct Bool) := [.run false, .run false, .run true, .run false, .reinit true 2]

theorem barrier_rounds_two : ∃ r : (machine Bool 2).Run, Fair r ∧ (∀ i, ∃ t, (r.state t).tasks i = .returned) := by
  have run : (machine Bool 2).leadsTo (fun _ => true) (makeBarrier 2) twoTasks = true := by decide
  have fair : Fair (.ofActions rfl run) := by
    intro i
    exact Machine.Run.fair_ofActions rfl run (by cases i <;> unfold Ready <;> decide) _
  have late : ∀ t i m, twoTasks[t]? = some (.reinit i m) →
      ((machine Bool 2).after (makeBarrier 2) twoTasks t).AllReturned := by
    intro t i m act
    have here : t = 4 := by
      rcases t with _ | _ | _ | _ | _ | t <;> simp [twoTasks] at act ⊢
    subst here
    unfold AllReturned
    decide
  exact ⟨.ofActions rfl run, fair, ((barrier_rounds (by decide) (by decide) _).2 fair).mpr late⟩

/-- The task that comes last begins a new round at once, and the other one wakes up
in that round. -/
def missedRound : List (BarrierAct Bool) := [.run false, .run true, .reinit true 2, .run false]

theorem barrier_round_missed : ∃ r : (machine Bool 2).Run, Fair r ∧ ∀ t, (r.state t).tasks false ≠ .returned := by
  have run : (machine Bool 2).leadsTo (fun _ => true) (makeBarrier 2) missedRound = true := by decide
  have early : ∀ t < 5, ((machine Bool 2).after (makeBarrier 2) missedRound t).tasks false ≠ .returned := by decide
  refine ⟨.ofActions rfl run, ?_, ?_⟩
  · intro i
    exact Machine.Run.fair_ofActions rfl run (by cases i <;> unfold Ready <;> decide) _
  · intro t
    have last : (machine Bool 2).after (makeBarrier 2) missedRound t =
        (machine Bool 2).after (makeBarrier 2) missedRound (min t 4) := by
      rw [Machine.after, List.take_eq_take_min]
      rfl
    change ((machine Bool 2).after (makeBarrier 2) missedRound t).tasks false ≠ .returned
    rw [last]
    exact early _ (by omega)

end Barrier

end MoonGen
