import Mathlib.Algebra.Order.Field.Basic
import Mathlib.Algebra.Order.Field.Rat
import Mathlib.Order.Nat
import Mathlib.Data.Nat.Find
import MoonGen.Flow.Uid

namespace MoonGen

/-- A timer of `timer.lua`, with times in seconds. -/
structure Timer (K : Type*) where
  time : K
  stop : K

def Timer.new {K : Type*} [Add K] (time now : K) : Timer K := { time, stop := now + time }

def Timer.running {K : Type*} [LT K] [DecidableLT K] (timer : Timer K) (now : K) : Bool := timer.stop > now

structure RxPacket where
  bytes : Memory
  size : Nat

/-- What the count thread meets in each round of its loop: the answer of `mg.running`, the
clock at the test of the timer, the packets received, the answer of the flow's counter and
the clock right after that. -/
structure CountEnv (K : Type*) where
  running : Nat → Bool
  tested : Nat → K
  received : Nat → List RxPacket
  isZero : Nat → Bool
  observed : Nat → K

/-- The counters by their keys, and the timer. -/
structure CountState (K : Type*) where
  counters : Nat → Nat
  runtime : Option (Timer K)

def countPacket (counters : Nat → Nat) (buf : RxPacket) : Nat → Nat :=
  let uid := getUid buf.bytes buf.size
  fun key => if key = uid then counters uid + 1 else counters key

namespace CountState

/-- The condition of the loop before a round. -/
def goesOn {K : Type*} [LinearOrder K] (env : CountEnv K) (n : Nat) (s : CountState K) : Bool :=
  env.running n && match s.runtime with
    | none => true
    | some runtime => !runtime.running (env.tested n)

theorem goesOn_timer {K : Type*} [LinearOrder K] {env : CountEnv K} {s : CountState K} {timer : Timer K}
    (unstopped : ∀ k, env.running k = true) (held : s.runtime = some timer) (n : Nat) :
    s.goesOn env n = true ↔ timer.stop ≤ env.tested n := by
  rw [goesOn, unstopped, held, Bool.true_and, Bool.not_eq_true', Timer.running, decide_eq_false_iff_not,
    gt_iff_lt, not_lt]

def round {K : Type*} [Field K] (env : CountEnv K) (delay : K) (n : Nat) (s : CountState K) : CountState K where
  counters := (env.received n).foldl countPacket s.counters
  runtime :=
    if s.runtime.isNone && env.isZero n then some (Timer.new (delay / 1000) (env.observed n)) else s.runtime

end CountState

/-- The clock does not go back. -/
structure CountEnv.ClockForward {K : Type*} [LinearOrder K] (env : CountEnv K) : Prop where
  observed_le (n : Nat) : env.observed n ≤ env.tested (n + 1)
  tested_le (n : Nat) : env.tested n ≤ env.observed n

theorem CountEnv.ClockForward.mono {K : Type*} [LinearOrder K] {env : CountEnv K} (clock : env.ClockForward) :
    Monotone env.tested :=
  monotone_nat_of_le_succ fun n => (clock.tested_le n).trans (clock.observed_le n)

section
variable {K : Type*} [Field K] [LinearOrder K] (env : CountEnv K) (delay : K)

/-- `countThread` before its `n`th test of the loop condition, if it gets there. -/
def countThread : Nat → Option (CountState K)
  | 0 => some { counters := fun _ => 0, runtime := none }
  | n + 1 => do
    let s ← countThread n
    if s.goesOn env n then some (s.round env delay n) else none

def CountEndsAt (n : Nat) : Prop := ∃ s, countThread env delay n = some s ∧ s.goesOn env n = false

/-- The thread finds the flow's counter at zero at the end of a round. -/
def ObservesZero (n : Nat) : Prop :=
  ∃ s, countThread env delay n = some s ∧ s.goesOn env n = true ∧ s.runtime = none ∧ env.isZero n = true

/-- All packets of the rounds before. -/
def receivedBefore (n : Nat) : List RxPacket := (List.range n).flatMap env.received

/-- Once the thread finds the counter at zero, it goes on for the delay in milliseconds at
least, with every packet counted, and then ends. -/
def GracePeriod : Prop :=
  ∀ m, ObservesZero env delay m → ∃ n, m < n ∧ CountEndsAt env delay n ∧
    env.observed m + delay / 1000 ≤ env.tested n ∧ ∀ s, countThread env delay n = some s →
      ∀ key, s.counters key = (receivedBefore env n).countP fun buf => getUid buf.bytes buf.size = key

variable {env delay} {n m : Nat} {s : CountState K}

theorem countThread_succ (here : countThread env delay n = some s) :
    countThread env delay (n + 1) = if s.goesOn env n then some (s.round env delay n) else none := by
  rw [countThread, here]
  rfl

theorem countThread_ended (here : countThread env delay n = none) (k : Nat) : countThread env delay (n + k) = none := by
  induction k with
  | zero => exact here
  | succ k ih =>
    rw [← Nat.add_assoc, countThread, ih]
    rfl

/-- As long as the counter is not at zero, there is no timer and the thread goes on. -/
theorem countThread_quiet (delay : K) (unstopped : ∀ k, env.running k = true) (quiet : ∀ k < n, env.isZero k = false) :
    ∃ s, countThread env delay n = some s ∧ s.runtime = none ∧ s.goesOn env n = true := by
  induction n with
  | zero => exact ⟨_, rfl, rfl, by rw [CountState.goesOn, unstopped]; rfl⟩
  | succ n ih =>
    obtain ⟨s, here, timer, goes⟩ := ih fun k before => quiet k (by omega)
    have endless : (s.round env delay n).runtime = none := by
      rw [CountState.round, timer, quiet n (Nat.lt_succ_self n)]
      rfl
    refine ⟨s.round env delay n, ?_, endless, ?_⟩
    · rw [countThread_succ here, if_pos goes]
    · rw [CountState.goesOn, unstopped, endless]
      rfl

/-- The round that finds the counter at zero starts the timer. -/
theorem ObservesZero.next (zero : ObservesZero env delay m) :
    ∃ s, countThread env delay (m + 1) = some s ∧
      s.runtime = some (Timer.new (delay / 1000) (env.observed m)) := by
  obtain ⟨s, here, goes, timer, found⟩ := zero
  refine ⟨s.round env delay m, ?_, ?_⟩
  · rw [countThread_succ here, if_pos goes]
  · rw [CountState.round, timer, found]
    rfl

/-- A thread that finds its timer run out goes on for good. -/
theorem countThread_forever (unstopped : ∀ k, env.running k = true) (clock : env.ClockForward) {timer : Timer K}
    (here : countThread env delay n = some s) (held : s.runtime = some timer) (late : timer.stop ≤ env.tested n)
    (k : Nat) : ∃ s, countThread env delay (n + k) = some s ∧ s.goesOn env (n + k) = true ∧ s.runtime = some timer := by
  induction k with
  | zero => exact ⟨s, here, (CountState.goesOn_timer unstopped held n).mpr late, held⟩
  | succ k ih =>
    obtain ⟨s, there, goes, kept⟩ := ih
    have runtime : (s.round env delay (n + k)).runtime = some timer := by
      rw [CountState.round, kept]
      rfl
    refine ⟨s.round env delay (n + k), ?_, ?_, runtime⟩
    · rw [← Nat.add_assoc, countThread_succ there, if_pos goes]
    · exact (CountState.goesOn_timer unstopped runtime _).mpr (late.trans (clock.mono (by omega)))

/-- Behind the round that finds the counter at zero the thread ends before the delay is
over, or it does not end at all. -/
theorem ObservesZero.early_or_never (unstopped : ∀ k, env.running k = true) (clock : env.ClockForward)
    (zero : ObservesZero env delay m) {n : Nat} (behind : m < n) (ends : CountEndsAt env delay n) :
    n = m + 1 ∧ env.tested n < env.observed m + delay / 1000 := by
  obtain ⟨s, here, timer⟩ := zero.next
  obtain ⟨last, there, stopped⟩ := ends
  obtain ⟨k, rfl⟩ : ∃ k, n = m + 1 + k := ⟨n - (m + 1), by omega⟩
  by_cases late : env.observed m + delay / 1000 ≤ env.tested (m + 1)
  · obtain ⟨other, same, goes, _⟩ := countThread_forever unstopped clock here timer late k
    obtain rfl := Option.some.inj (there.symm.trans same)
    rw [goes] at stopped
    cases stopped
  · have ended : s.goesOn env (m + 1) = false :=
      Bool.eq_false_iff.mpr fun goes => late ((CountState.goesOn_timer unstopped timer _).mp goes)
    cases k with
    | zero => exact ⟨rfl, not_le.mp late⟩
    | succ k =>
      have done : countThread env delay (m + 1 + 1) = none := by
        rw [countThread_succ here, if_neg (Bool.eq_false_iff.mp ended)]
      have after := countThread_ended done k
      rw [Nat.add_assoc, Nat.add_comm 1 k, there] at after
      cases after

/-- The test of the timer is the wrong way round, so that there is a grace period only
where none is due. -/
theorem grace_period_iff (env : CountEnv K) (delay : K) (unstopped : ∀ n, env.running n = true)
    (clock : env.ClockForward) : GracePeriod env delay ↔ ∀ m, env.isZero m = false := by
  constructor
  · intro period m
    by_contra nonzero
    have found : ∃ m, env.isZero m = true := ⟨m, Bool.eq_true_of_not_eq_false nonzero⟩
    have quiet (k : Nat) (before : k < Nat.find found) : env.isZero k = false :=
      Bool.eq_false_iff.mpr (Nat.find_min found before)
    obtain ⟨s, here, timer, goes⟩ := countThread_quiet delay unstopped quiet
    have zero : ObservesZero env delay (Nat.find found) := ⟨s, here, goes, timer, Nat.find_spec found⟩
    obtain ⟨n, behind, ends, done, _⟩ := period _ zero
    exact absurd (zero.early_or_never unstopped clock behind ends).2 (not_lt.mpr done)
  · intro quiet m zero
    obtain ⟨_, _, _, _, found⟩ := zero
    rw [quiet m] at found
    cases found

end

/-- Rounds of one second in which nothing arrives. -/
def idleEnv (zero : Bool) : CountEnv ℚ where
  running _ := true
  tested n := n
  received _ := []
  isZero _ := zero
  observed n := n

theorem idleEnv_clock (zero : Bool) : (idleEnv zero).ClockForward where
  observed_le n := Nat.cast_le.mpr (Nat.le_succ n)
  tested_le _ := le_refl _

theorem grace_period_idle : GracePeriod (idleEnv false) 2000 :=
  (grace_period_iff (idleEnv false) 2000 (fun _ => rfl) (idleEnv_clock false)).mpr fun _ => rfl

/-- With the counter at zero from the start and a delay of two seconds the thread ends
after one second. With half a second it does not end. -/
theorem grace_period_missed :
    ¬ GracePeriod (idleEnv true) 2000 ∧ CountEndsAt (idleEnv true) 2000 1 ∧
    ∀ n, 0 < n → ¬ CountEndsAt (idleEnv true) 500 n := by
  have zero (delay : ℚ) : ObservesZero (idleEnv true) delay 0 := ⟨_, rfl, rfl, rfl, rfl⟩
  have clock := idleEnv_clock true
  refine ⟨fun period => ?_, ⟨_, rfl, by decide +kernel⟩, fun n behind ends => ?_⟩
  · obtain ⟨n, behind, ends, done, _⟩ := period 0 (zero 2000)
    exact absurd ((zero 2000).early_or_never (fun _ => rfl) clock behind ends).2 (not_lt.mpr done)
  · obtain ⟨rfl, early⟩ := (zero 500).early_or_never (fun _ => rfl) clock behind ends
    exact absurd early (by decide +kernel)

end MoonGen
