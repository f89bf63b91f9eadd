import Mathlib.Algebra.Order.BigOperators.Group.Finset
import Mathlib.Data.Fintype.EquivFin
import Mathlib.Tactic.IntervalCases
import MoonGen.Lib.Machine

namespace MoonGen

open Function

section
variable {ι β : Type*} [Fintype ι]

/-- How many members of a family pass a test. -/
def tally (p : β → Bool) (f : ι → β) : Nat := ∑ i, (p (f i)).toNat

/-- What the change of one member does to the number. -/
theorem tally_update [DecidableEq ι] (p : β → Bool) (f : ι → β) (i : ι) (v : β) :
    tally p (update f i v) + (p (f i)).toNat = tally p f + (p v).toNat := by
  have others : ∑ j ∈ Finset.univ.erase i, (p (update f i v j)).toNat =
      ∑ j ∈ Finset.univ.erase i, (p (f j)).toNat :=
    Finset.sum_congr rfl fun j member => by rw [update_of_ne (Finset.ne_of_mem_erase member)]
  have after := Finset.add_sum_erase Finset.univ (fun j => (p (update f i v j)).toNat) (Finset.mem_univ i)
  have before := Finset.add_sum_erase Finset.univ (fun j => (p (f j)).toNat) (Finset.mem_univ i)
  rw [update_self, others] at after
  unfold tally
  omega

theorem tally_eq_zero {p : β → Bool} {f : ι → β} : tally p f = 0 ↔ ∀ i, p (f i) = false := by
  rw [tally, Finset.sum_eq_zero_iff]
  simp

theorem tally_le_card (p : β → Bool) (f : ι → β) : tally p f ≤ Fintype.card ι := by
  have each : ∀ i ∈ Finset.univ, (p (f i)).toNat ≤ 1 := fun i _ => Bool.toNat_le _
  simpa [tally] using Finset.sum_le_card_nsmul Finset.univ _ 1 each

end

/-- A load task and the activity counter of its flow: `inc`, the sending loop and
`dec`, one access to a field per step. -/
inductive LoadPc where
  | created
  | incLocked
  | incRead (count : UInt32)
  | incStored
  | incActive
  | sending
  | finished
  | decLocked
  | decRead (count : UInt32)
  | decStored
  | ended
  deriving DecidableEq

/-- A task that polls `isZero`. -/
inductive PollPc where
  | idle
  | sawActive
  | returned (zero : Bool)
  deriving DecidableEq

/-- `struct counter` with the tasks of its flow. -/
structure Counter (ι ρ : Type) where
  active : UInt8
  count : UInt32
  lock : Option ι
  loads : ι → LoadPc
  polls : ρ → PollPc

inductive CounterAct (ι ρ : Type) where
  | load (i : ι)
  | poll (r : ρ)
  deriving DecidableEq

namespace LoadPc

def holdsLock : LoadPc → Bool
  | incLocked | incRead _ | incStored | incActive | decLocked | decRead _ | decStored => true
  | created | sending | finished | ended => false

/-- The task is past the store of its `inc`. -/
def entered : LoadPc → Bool
  | created | incLocked | incRead _ => false
  | _ => true

/-- The task is past the store of its `dec`. -/
def left : LoadPc → Bool
  | decStored | ended => true
  | _ => false

def counted (pc : LoadPc) : Bool := pc.entered && !pc.left

def finishedSending : LoadPc → Bool
  | finished | decLocked | decRead _ | decStored | ended => true
  | _ => false

def read : LoadPc → Option UInt32
  | incRead count | decRead count => some count
  | _ => none

/-- Where the next step of a task leads, which may read the count. -/
def next (count : UInt32) : LoadPc → LoadPc
  | created => incLocked
  | incLocked => incRead count
  | incRead _ => incStored
  | incStored => incActive
  | incActive => sending
  | sending => finished
  | finished => decLocked
  | decLocked => decRead count
  | decRead _ => decStored
  | decStored | ended => ended

variable {pc : LoadPc}

theorem finishedSending_of_left (out : pc.left = true) : pc.finishedSending = true := by
  cases pc <;> first | rfl | contradiction

theorem eq_of_read {count : UInt32} (value : pc.read = some count) : pc = .incRead count ∨ pc = .decRead count := by
  cases pc <;> cases value
  · exact .inl rfl
  · exact .inr rfl

theorem holdsLock_of_read {count : UInt32} (value : pc.read = some count) : pc.holdsLock = true := by
  rcases eq_of_read value with rfl | rfl <;> rfl

/-- Only the stores of the count change who counts. -/
theorem next_of_read_none (count : UInt32) (other : pc.read = none) :
    (pc.next count).entered = pc.entered ∧ (pc.next count).counted = pc.counted := by
  cases pc <;> first | exact ⟨rfl, rfl⟩ | contradiction

theorem finishedSending_next (count : UInt32) (done : pc.finishedSending = true) :
    (pc.next count).finishedSending = true := by
  cases pc <;> first | rfl | contradiction

theorem entered_next (count : UInt32) (inside : pc.entered = true) : (pc.next count).entered = true := by
  cases pc <;> first | rfl | contradiction

end LoadPc

namespace Counter

variable {ι ρ : Type} [DecidableEq ι]

def new : Counter ι ρ := ⟨0, 0, none, fun _ => .created, fun _ => .idle⟩

def goto (c : Counter ι ρ) (i : ι) (pc : LoadPc) : Counter ι ρ := { c with loads := update c.loads i pc }

/-- The next step of a load task. The sending loop counts as one. -/
def load (c : Counter ι ρ) (i : ι) : Counter ι ρ :=
  match c.loads i with
  | .created => { c.goto i .incLocked with lock := some i }
  | .incLocked => c.goto i (.incRead c.count)
  | .incRead count => { c.goto i .incStored with count := count + 1 }
  | .incStored => { c.goto i .incActive with active := 1 }
  | .incActive => { c.goto i .sending with lock := none }
  | .sending => c.goto i .finished
  | .finished => { c.goto i .decLocked with lock := some i }
  | .decLocked => c.goto i (.decRead c.count)
  | .decRead count => { c.goto i .decStored with count := count - 1 }
  | .decStored => { c.goto i .ended with lock := none }
  | .ended => c

/-- The next access of a call of `isZero`. -/
def isZero [DecidableEq ρ] (c : Counter ι ρ) (r : ρ) : Counter ι ρ :=
  { c with polls := update c.polls r (match c.polls r with
    | .idle | .returned _ => if c.active = 1 then .sawActive else .returned false
    | .sawActive => .returned (c.count == 0)) }

def step [DecidableEq ρ] (c : Counter ι ρ) : CounterAct ι ρ → Counter ι ρ
  | .load i => c.load i
  | .poll r => c.isZero r

/-- A load task waits for the lock before it counts itself in and before it counts
itself out. -/
def Able (c : Counter ι ρ) : CounterAct ι ρ → Prop
  | .load i => ((c.loads i = .created ∨ c.loads i = .finished) → c.lock = none) ∧ c.loads i ≠ .ended
  | .poll _ => True

instance (c : Counter ι ρ) : (a : CounterAct ι ρ) → Decidable (c.Able a)
  | .load i => inferInstanceAs
      (Decidable (((c.loads i = .created ∨ c.loads i = .finished) → c.lock = none) ∧ c.loads i ≠ .ended))
  | .poll _ => inferInstanceAs (Decidable True)

def machine (ι ρ : Type) [DecidableEq ι] [DecidableEq ρ] : Machine (Counter ι ρ) (CounterAct ι ρ) where
  start c := c = new
  enabled := Able
  next := step

/-- No call of `isZero` has returned true while a load task was still to send. -/
def ZeroOnlyAfterSending (c : Counter ι ρ) : Prop :=
  ∀ r, c.polls r = .returned true → ∀ i, (c.loads i).finishedSending = true

/-- A task counts itself out as the last one only when all have counted themselves
in, and none finds the count at its maximum when it counts itself in. -/
def Together (c : Counter ι ρ) : CounterAct ι ρ → Prop
  | .load i => match c.loads i with
    | .incRead _ => c.count + 1 ≠ 0
    | .decRead _ => c.count = 1 → ∀ j, (c.loads j).entered = true
    | _ => True
  | .poll _ => True

instance [Fintype ι] (c : Counter ι ρ) : (a : CounterAct ι ρ) → Decidable (c.Together a)
  | .load i => by
    unfold Together
    dsimp only
    split <;> infer_instance
  | .poll _ => inferInstanceAs (Decidable True)

instance (c : Counter ι ρ) [DecidableEq ρ] (a : CounterAct ι ρ) : Decidable ((machine ι ρ).enabled c a) :=
  inferInstanceAs (Decidable (c.Able a))

/-- What the lock, the count and the flag say about the load tasks. -/
structure Consistent [Fintype ι] (c : Counter ι ρ) : Prop where
  lock : ∀ i, (c.loads i).holdsLock = true → c.lock = some i
  read : ∀ i count, (c.loads i).read = some count → count = c.count
  count : c.count.toNat = tally LoadPc.counted c.loads
  active : c.active = 1 → ∃ i, (c.loads i).entered = true
  seen : ∀ r, c.polls r = .sawActive → c.active = 1
  settled : (∃ i, (c.loads i).entered = true) → (∀ i, (c.loads i).counted = false) →
    ∀ i, (c.loads i).entered = true

section
variable {c : Counter ι ρ} {i j : ι}

theorem loads_load (c : Counter ι ρ) (i : ι) : (c.load i).loads = update c.loads i ((c.loads i).next c.count) := by
  unfold load
  split
  case h_11 settled => rw [settled, LoadPc.next, ← settled, update_eq_self]
  all_goals
    rename_i pc
    rw [pc]
    rfl

theorem loads_load_self : (c.load i).loads i = (c.loads i).next c.count := by
  rw [loads_load, update_self]

theorem loads_load_of_ne (other : j ≠ i) : (c.load i).loads j = c.loads j := by
  rw [loads_load, update_of_ne other]

theorem polls_load (c : Counter ι ρ) (i : ι) : (c.load i).polls = c.polls := by
  unfold load
  split <;> rfl

/-- A task that has not got the lock changes none of the fields. -/
theorem load_of_locked (able : c.Able (.load i)) (taken : c.lock = some j) (free : (c.loads i).holdsLock = false) :
    (c.load i).lock = some j ∧ (c.load i).count = c.count := by
  obtain ⟨waits, _⟩ := able
  unfold load
  cases pc : c.loads i <;> simp_all [LoadPc.holdsLock, goto]

theorem count_load_of_read_none (other : (c.loads i).read = none) : (c.load i).count = c.count := by
  unfold load
  cases pc : c.loads i <;> first | rfl | (rw [pc] at other; contradiction)

theorem active_load (c : Counter ι ρ) (i : ι) : (c.load i).active = c.active ∨
    (c.load i).active = 1 ∧ c.loads i = .incStored := by
  unfold load
  cases pc : c.loads i <;> simp [goto]

omit [DecidableEq ι] in
theorem polls_isZero [DecidableEq ρ] (c : Counter ι ρ) (r q : ρ) : (c.isZero r).polls q = c.polls q ∨
    (c.isZero r).polls q = .returned false ∨
    c.active = 1 ∧ (c.isZero r).polls q = .sawActive ∨
    c.polls q = .sawActive ∧ (c.isZero r).polls q = .returned (c.count == 0) := by
  by_cases same : q = r
  · subst same
    unfold isZero
    dsimp only
    rw [update_self]
    split
    · split <;> simp_all
    · split <;> simp_all
    · simp_all
  · exact .inl (update_of_ne same _ _)

/-- What holds of a task and is kept by its own steps stays so. -/
theorem kept_load {p : LoadPc → Bool} (next : ∀ {pc} count, p pc = true → p (pc.next count) = true)
    (holds : p (c.loads j) = true) : p ((c.load i).loads j) = true := by
  by_cases same : j = i
  · subst same
    rw [loads_load_self]
    exact next c.count holds
  · rwa [loads_load_of_ne same]

theorem entered_load (inside : (c.loads j).entered = true) : ((c.load i).loads j).entered = true :=
  kept_load LoadPc.entered_next inside

end

theorem toNat_add_one {count : UInt32} (small : count + 1 ≠ 0) : (count + 1).toNat = count.toNat + 1 := by
  have bound := count.toNat_lt
  have nonzero : (count + 1).toNat ≠ 0 := fun zero => small (UInt32.toNat_inj.mp zero)
  rw [UInt32.toNat_add, UInt32.toNat_one] at nonzero ⊢
  omega

section
variable [Fintype ι] {c : Counter ι ρ} {i j : ι}

/-- While a task has the lock, the others change neither the lock nor the count. -/
theorem Consistent.load_of_ne (ok : c.Consistent) (able : c.Able (.load i)) (other : j ≠ i)
    (holds : (c.loads j).holdsLock = true) : (c.load i).lock = some j ∧ (c.load i).count = c.count := by
  have taken := ok.lock j holds
  refine load_of_locked able taken (Bool.eq_false_iff.mpr fun both => other ?_)
  exact Option.some.inj (taken.symm.trans (ok.lock i both))

theorem lock_load (ok : c.Consistent) (able : c.Able (.load i)) (holds : ((c.load i).loads j).holdsLock = true) :
    (c.load i).lock = some j := by
  by_cases same : j = i
  · subst same
    have locked := ok.lock j
    rw [loads_load_self] at holds
    unfold load
    cases pc : c.loads j <;> simp_all [LoadPc.next, LoadPc.holdsLock, goto]
  · rw [loads_load_of_ne same] at holds
    exact (ok.load_of_ne able same holds).1

theorem read_load (ok : c.Consistent) (able : c.Able (.load i)) {count : UInt32}
    (value : ((c.load i).loads j).read = some count) : count = (c.load i).count := by
  by_cases same : j = i
  · subst same
    rw [loads_load_self] at value
    unfold load
    cases pc : c.loads j <;> simp_all [LoadPc.next, LoadPc.read, goto]
  · rw [loads_load_of_ne same] at value
    rw [(ok.load_of_ne able same (LoadPc.holdsLock_of_read value)).2]
    exact ok.read j count value

/-- What a step of a load task does to the number of tasks that count. -/
theorem tally_load (c : Counter ι ρ) (i : ι) :
    tally LoadPc.counted (c.load i).loads + (c.loads i).counted.toNat =
      tally LoadPc.counted c.loads + ((c.loads i).next c.count).counted.toNat := by
  rw [loads_load]
  exact tally_update _ _ _ _

theorem count_load (ok : c.Consistent) (guard : c.Together (.load i)) :
    (c.load i).count.toNat = tally LoadPc.counted (c.load i).loads := by
  have number := tally_load c i
  rw [← ok.count] at number
  cases value : (c.loads i).read with
  | none =>
    rw [(LoadPc.next_of_read_none c.count value).2] at number
    rw [count_load_of_read_none value]
    omega
  | some count =>
    obtain rfl := ok.read i count value
    rcases LoadPc.eq_of_read value with pc | pc
    · have small : c.count + 1 ≠ 0 := by rwa [Together, pc] at guard
      have stored : (c.load i).count = c.count + 1 := by rw [load, pc]
      rw [pc] at number
      change _ + 0 = _ + 1 at number
      rw [stored, toNat_add_one small]
      omega
    · have stored : (c.load i).count = c.count - 1 := by rw [load, pc]
      rw [pc] at number
      change _ + 1 = _ + 0 at number
      have order : 1 ≤ c.count := by
        rw [UInt32.le_iff_toNat_le, UInt32.toNat_one]
        omega
      rw [stored, UInt32.toNat_sub_of_le _ _ order, UInt32.toNat_one]
      omega

theorem active_entered_load (ok : c.Consistent) (set : (c.load i).active = 1) :
    ∃ j, ((c.load i).loads j).entered = true := by
  rcases active_load c i with same | ⟨_, stored⟩
  · rw [same] at set
    obtain ⟨j, inside⟩ := ok.active set
    exact ⟨j, entered_load inside⟩
  · refine ⟨i, ?_⟩
    rw [loads_load_self, stored]
    rfl

/-- The last task to count itself out finds all of them counted in. -/
theorem settled_load (ok : c.Consistent) (guard : c.Together (.load i))
    (entered : ∃ j, ((c.load i).loads j).entered = true) (uncounted : ∀ j, ((c.load i).loads j).counted = false)
    (j : ι) : ((c.load i).loads j).entered = true := by
  refine entered_load ?_
  cases value : (c.loads i).read with
  | none =>
    have kept (k : ι) : ((c.load i).loads k).entered = (c.loads k).entered ∧
        ((c.load i).loads k).counted = (c.loads k).counted := by
      by_cases same : k = i
      · subst same
        rw [loads_load_self]
        exact LoadPc.next_of_read_none _ value
      · rw [loads_load_of_ne same]
        exact ⟨rfl, rfl⟩
    refine ok.settled ?_ (fun k => (kept k).2.symm.trans (uncounted k)) j
    obtain ⟨k, inside⟩ := entered
    exact ⟨k, (kept k).1.symm.trans inside⟩
  | some count =>
    rcases LoadPc.eq_of_read value with pc | pc
    · have inside := uncounted i
      rw [loads_load_self, pc] at inside
      contradiction
    · have number := tally_load c i
      rw [tally_eq_zero.mpr uncounted, ← ok.count, pc] at number
      rw [Together, pc] at guard
      exact guard (UInt32.toNat_inj.mp number.symm) j

theorem Consistent.load (ok : c.Consistent) (able : c.Able (.load i)) (guard : c.Together (.load i)) :
    (c.load i).Consistent where
  lock _ := lock_load ok able
  read _ _ := read_load ok able
  count := count_load ok guard
  active := active_entered_load ok
  seen r saw := by
    rw [polls_load] at saw
    rcases active_load c i with same | ⟨set, _⟩
    · exact same.trans (ok.seen r saw)
    · exact set
  settled := settled_load ok guard

omit [DecidableEq ι] in
theorem Consistent.new : (new : Counter ι ρ).Consistent where
  lock i holds := by contradiction
  read i count value := by contradiction
  count := (tally_eq_zero.mpr fun _ => rfl).symm
  active set := absurd set (show ¬(0 : UInt8) = 1 by decide)
  seen r saw := by contradiction
  settled entered := by
    obtain ⟨i, inside⟩ := entered
    contradiction

omit [DecidableEq ι] in
/-- A counter that is active and zero has seen all its tasks off. -/
theorem Consistent.finishedSending (ok : c.Consistent) (set : c.active = 1) (zero : c.count = 0) (i : ι) :
    (c.loads i).finishedSending = true := by
  have uncounted : ∀ i, (c.loads i).counted = false := tally_eq_zero.mp (by rw [← ok.count, zero]; rfl)
  have inside := ok.settled (ok.active set) uncounted i
  have out := uncounted i
  rw [LoadPc.counted, inside, Bool.true_and, Bool.not_eq_false'] at out
  exact LoadPc.finishedSending_of_left out

variable [DecidableEq ρ]

omit [DecidableEq ι] in
theorem Consistent.isZero (ok : c.Consistent) (r : ρ) : (c.isZero r).Consistent where
  __ := ok
  seen q saw := by
    rcases polls_isZero c r q with same | off | ⟨set, _⟩ | ⟨_, back⟩
    · exact ok.seen q (same.symm.trans saw)
    · rw [off] at saw
      contradiction
    · exact set
    · rw [back] at saw
      contradiction

/-- One step of a run whose tasks count themselves in before the count is back at
zero. -/
theorem consistent_step {a : CounterAct ι ρ} (ok : c.Consistent ∧ c.ZeroOnlyAfterSending)
    (able : ((machine ι ρ).guarded Together).enabled c a) :
    (c.step a).Consistent ∧ (c.step a).ZeroOnlyAfterSending := by
  obtain ⟨ok, sound⟩ := ok
  obtain ⟨able, guard⟩ := able
  cases a with
  | load i =>
    refine ⟨ok.load able guard, fun r zero j => kept_load LoadPc.finishedSending_next (sound r ?_ j)⟩
    rwa [step, polls_load] at zero
  | poll r =>
    refine ⟨ok.isZero r, fun q zero j => ?_⟩
    change (c.isZero r).polls q = _ at zero
    rcases polls_isZero c r q with same | off | ⟨_, saw⟩ | ⟨saw, back⟩
    · exact sound q (same.symm.trans zero) j
    · rw [off] at zero
      contradiction
    · rw [saw] at zero
      contradiction
    · rw [back, PollPc.returned.injEq, beq_iff_eq] at zero
      exact ok.finishedSending (ok.seen q saw) zero j

theorem consistent_reach (reach : ((machine ι ρ).guarded Together).Reach c) :
    c.Consistent ∧ c.ZeroOnlyAfterSending := by
  refine reach.invariant ?_ fun s a => consistent_step
  rintro s rfl
  exact ⟨.new, fun r zero => by contradiction⟩

/-- A single load task is always together with itself. -/
theorem reach_together [Subsingleton ι] (reach : (machine ι ρ).Reach c) :
    ((machine ι ρ).guarded Together).Reach c := by
  induction reach with
  | start first => exact .start first
  | @step c a _ able ih =>
    refine .step ih ⟨able, ?_⟩
    have ok := (consistent_reach ih).1
    cases a with
    | poll r => trivial
    | load i =>
      unfold Together
      dsimp only
      split
      · intro full
        have few := tally_le_card LoadPc.counted c.loads
        have one : Fintype.card ι ≤ 1 := Fintype.card_le_one_iff_subsingleton.mpr inferInstance
        rw [← ok.count] at few
        have zero := congrArg UInt32.toNat full
        rw [UInt32.toNat_add, UInt32.toNat_one, UInt32.toNat_zero] at zero
        omega
      · rename_i pc
        intro _ j
        rw [Subsingleton.elim j i, pc]
        rfl
      · trivial

omit [Fintype ι] in
theorem reach_loads {n : Nat} (able : ∀ m < n, ((fun c : Counter ι ρ => c.load i)^[m] c).Able (.load i))
    (reach : (machine ι ρ).Reach c) : (machine ι ρ).Reach ((fun c : Counter ι ρ => c.load i)^[n] c) := by
  induction n with
  | zero => exact reach
  | succ n ih =>
    rw [iterate_succ_apply']
    exact .step (ih fun m below => able m (by omega)) (show (machine ι ρ).enabled _ (.load i) from able n (by omega))

omit [Fintype ι] in
/-- A task may come and go while another one is still to start. -/
theorem reach_alone (i : ι) (r : ρ) : ∃ c, (machine ι ρ).Reach c ∧ c.polls r = .returned true ∧
    ∀ j, j ≠ i → c.loads j = .created := by
  have gone : (machine ι ρ).Reach ((fun c : Counter ι ρ => c.load i)^[10] new) := by
    refine reach_loads (fun m below => ?_) (.start rfl)
    interval_cases m <;> simp [load, goto, Able, new]
  have able (c : Counter ι ρ) : (machine ι ρ).enabled c (.poll r) := trivial
  have back := (gone.step (able _)).step (able _)
  refine ⟨_, back, ?_, fun j other => ?_⟩
  · simp [machine, step, isZero, load, goto, new]
  · simp [machine, step, isZero, load, goto, new, other]

/-- `isZero` is right in every run whose tasks are together, and in every run at all
exactly when there is a single load task. -/
theorem isZero_only_after_sending [Nonempty ι] [Nonempty ρ] :
    (∀ c, ((machine ι ρ).guarded Together).Reach c → c.ZeroOnlyAfterSending) ∧
      ((∀ c, (machine ι ρ).Reach c → c.ZeroOnlyAfterSending) ↔ Fintype.card ι = 1) := by
  refine ⟨fun c reach => (consistent_reach reach).2, fun sound => ?_, fun one c reach => ?_⟩
  · refine le_antisymm ?_ Fintype.card_pos
    refine Fintype.card_le_one_iff.mpr fun i j => ?_
    by_contra other
    obtain ⟨c, reach, zero, others⟩ := reach_alone (ρ := ρ) j (Classical.arbitrary ρ)
    have done := sound c reach _ zero i
    rw [others i other] at done
    contradiction
  · have := Fintype.card_le_one_iff_subsingleton.mp one.le
    exact (consistent_reach (reach_together reach)).2

/-- Two tasks that count themselves in one after the other, and out again. -/
def twoTasks : List (CounterAct (Fin 2) Unit) :=
  List.replicate 5 (.load ⟨0, Nat.two_pos⟩) ++ List.replicate 10 (.load ⟨1, Nat.one_lt_two⟩) ++
    List.replicate 5 (.load ⟨0, Nat.two_pos⟩) ++ [.poll (), .poll ()]

theorem isZero_only_after_sending_two : ∃ c, ((machine (Fin 2) Unit).guarded Together).Reach c ∧
    c.polls () = .returned true ∧ c.ZeroOnlyAfterSending := by
  have run : ((machine (Fin 2) Unit).guarded Together).leadsTo (fun c => c.polls () == .returned true) new
      twoTasks = true := by decide
  obtain ⟨c, reach, zero⟩ := Machine.reach_of_leadsTo run (.start rfl)
  exact ⟨c, reach, beq_iff_eq.mp zero, isZero_only_after_sending.1 c reach⟩

/-- The first of two tasks has sent all its packets before the second one starts. -/
theorem isZero_before_second_task : ∃ c : Counter (Fin 2) Unit, (machine (Fin 2) Unit).Reach c ∧
    c.polls () = .returned true ∧ c.loads 1 = .created := by
  obtain ⟨c, reach, zero, others⟩ := reach_alone (ι := Fin 2) 0 ()
  exact ⟨c, reach, zero, others 1 (by decide)⟩

end

end Counter
end MoonGen
