import Mathlib.Algebra.Group.Nat.Defs
import Mathlib.Order.Basic

namespace MoonGen

open Nat

/-- The unwrapping of a register of `W` values against the last result. -/
def readCtr (W : Nat) (val last : Int) : Int :=
  let diff := val - last
  last + if diff < 0 then W + diff else diff

def readCtr32 (val : Nat) (last : Int) : Int := readCtr (2 ^ 32) val last

/-- The three reads of the high, the low and again the high register. When the high
one has changed, the low one is read again through the undefined `self`. -/
def readCtr48 (h l h2 : Nat) (last : Int) : Except String Int :=
  if h2 ≠ h then .error "attempt to index global 'self' (a nil value)"
  else .ok (readCtr (2 ^ 48) (l + h * 2 ^ 32 : Nat) last)

/-- How many octets the hardware has counted at each of the three reads. At most one
carry into the high register lies between them. -/
structure OctetReads where
  first : Nat
  low : Nat
  check : Nat
  before : first ≤ low
  behind : low ≤ check
  carry : check / 2 ^ 32 ≤ first / 2 ^ 32 + 1

def OctetReads.readCtr48 (o : OctetReads) (last : Int) : Except String Int :=
  MoonGen.readCtr48 (o.first / 2 ^ 32 % 2 ^ 16) (o.low % 2 ^ 32) (o.check / 2 ^ 32 % 2 ^ 16) last

/-- What the hardware has counted when its registers are read. -/
structure RxCounts where
  uprc : Nat
  mprc : Nat
  bprc : Nat
  gorc : OctetReads

structure I40e where
  uprc : Int
  mprc : Int
  bprc : Int
  gorc : Int
  initPkts : Int
  initBytes : Int

namespace I40e

def init (c : RxCounts) : Except String I40e :=
  (c.gorc.readCtr48 0).map fun initBytes =>
    ⟨0, 0, 0, 0,
      readCtr32 (c.uprc % 2 ^ 32) 0 + readCtr32 (c.mprc % 2 ^ 32) 0 + readCtr32 (c.bprc % 2 ^ 32) 0, initBytes⟩

/-- The packets and bytes since `init`, and the device behind the call. -/
def getRxStats (dev : I40e) (c : RxCounts) : Except String ((Int × Int) × I40e) :=
  let uprc := readCtr32 (c.uprc % 2 ^ 32) dev.uprc
  let mprc := readCtr32 (c.mprc % 2 ^ 32) dev.mprc
  let bprc := readCtr32 (c.bprc % 2 ^ 32) dev.bprc
  (c.gorc.readCtr48 dev.gorc).map fun gorc =>
    ((uprc + mprc + bprc - dev.initPkts, gorc - dev.initBytes), { dev with uprc, mprc, bprc, gorc })

end I40e

/-- A counter of the hardware at `init` and at every later call: it starts with what
its register holds and counts less than a full turn between two calls. -/
structure Trajectory (W : Nat) where
  count : Nat → Nat
  start : count 0 < W
  grows : ∀ j, count j ≤ count (j + 1)
  slow : ∀ j, count (j + 1) < count j + W

/-- The counters of a port at all calls. The octets are those of the low reads. -/
structure RxTrajectory where
  uprc : Trajectory (2 ^ 32)
  mprc : Trajectory (2 ^ 32)
  bprc : Trajectory (2 ^ 32)
  gorc : Trajectory (2 ^ 48)
  reads : Nat → OctetReads
  low : ∀ j, (reads j).low = gorc.count j

namespace RxTrajectory

def counts (t : RxTrajectory) (j : Nat) : RxCounts :=
  ⟨t.uprc.count j, t.mprc.count j, t.bprc.count j, t.reads j⟩

/-- The device after some calls. A call that fails is the last one. -/
def device (t : RxTrajectory) : Nat → Except String I40e
  | 0 => I40e.init (t.counts 0)
  | j + 1 => ((t.device j).bind fun dev => dev.getRxStats (t.counts (j + 1))).map Prod.snd

/-- One more call. -/
def call (t : RxTrajectory) (j : Nat) : Except String ((Int × Int) × I40e) :=
  (t.device j).bind fun dev => dev.getRxStats (t.counts (j + 1))

def pkts (t : RxTrajectory) (j : Nat) : Int := t.uprc.count j + t.mprc.count j + t.bprc.count j

end RxTrajectory

/-- No carry into the high register falls between the reads. -/
def OctetReads.Still (o : OctetReads) : Prop := o.check / 2 ^ 32 = o.first / 2 ^ 32

instance (o : OctetReads) : Decidable o.Still := inferInstanceAs (Decidable (_ = _))

/-- The counter does not pass its end before the first call, and only once later. -/
def Trajectory.WrapsOnce {W : Nat} (t : Trajectory W) (n : Nat) : Prop :=
  t.count 1 < W ∧ ∀ j ≤ n, t.count (j + 1) < 2 * W

theorem readCtr_eq (W : Nat) (val last : Int) : readCtr W val last = if val < last then val + W else val := by
  unfold readCtr
  dsimp only
  split <;> split <;> omega

namespace Trajectory

variable {W : Nat}

/-- The unwrapped counter after some calls. -/
def tracked (t : Trajectory W) : Nat → Int
  | 0 => 0
  | j + 1 => readCtr W (t.count (j + 1) % W : Nat) (t.tracked j)

variable (t : Trajectory W)

theorem tracked_succ (j : Nat) : t.tracked (j + 1) =
    if ((t.count (j + 1) % W : Nat) : Int) < t.tracked j then ((t.count (j + 1) % W : Nat) : Int) + W
    else (t.count (j + 1) % W : Nat) := by
  rw [tracked, readCtr_eq]

theorem tracked_le (j : Nat) : t.tracked j ≤ t.count j := by
  induction j with
  | zero => exact Int.natCast_nonneg _
  | succ j ih =>
    have grows := t.grows j
    have small := mod_le (t.count (j + 1)) W
    rw [tracked_succ]
    split
    · have turn : W ≤ t.count (j + 1) := by
        by_contra below
        rw [mod_eq_of_lt (by omega)] at *
        omega
      have rest := mod_le (t.count (j + 1) - W) W
      rw [mod_eq_sub_mod turn]
      omega
    · omega

theorem tracked_one : t.tracked 1 = (t.count 1 % W : Nat) := by
  rw [tracked_succ, tracked, if_neg (by omega)]

theorem tracked_lt (j : Nat) : t.tracked (j + 1) < 2 * W := by
  have below := mod_lt (t.count (j + 1)) (zero_lt_of_lt t.start)
  rw [tracked_succ]
  split <;> omega

theorem tracked_next {j : Nat} (right : t.tracked j = t.count j) (once : t.count (j + 1) < 2 * W) :
    t.tracked (j + 1) = t.count (j + 1) := by
  have grows := t.grows j
  have slow := t.slow j
  rw [tracked_succ, right]
  by_cases below : t.count (j + 1) < W
  · rw [mod_eq_of_lt below, if_neg (by omega)]
  · rw [mod_eq_sub_mod (by omega), mod_eq_of_lt (by omega), if_pos (by omega)]
    omega

/-- The counter is tracked exactly as long as it does not pass its end twice. -/
theorem tracked_eq_iff (n : Nat) : (∀ j ≤ n, t.tracked (j + 1) = t.count (j + 1)) ↔ t.WrapsOnce n := by
  refine ⟨fun right => ⟨?_, fun j bound => ?_⟩, fun once => ?_⟩
  · have first : t.tracked 1 = t.count 1 := right 0 (Nat.zero_le n)
    have below := mod_lt (t.count 1) (zero_lt_of_lt t.start)
    rw [tracked_one] at first
    omega
  · have upper := t.tracked_lt j
    rw [right j bound] at upper
    omega
  · intro j
    induction j with
    | zero =>
      intro _
      rw [tracked_one, mod_eq_of_lt once.1]
    | succ j ih =>
      intro bound
      exact t.tracked_next (ih (by omega)) (once.2 (j + 1) bound)

end Trajectory

section
variable (o : OctetReads) (last : Int)

/-- Undisturbed, the three reads give the counter at the second of them. -/
theorem OctetReads.readCtr48_of_still (still : o.Still) :
    o.readCtr48 last = .ok (readCtr (2 ^ 48) (o.low % 2 ^ 48 : Nat) last) := by
  have before := o.before
  have behind := o.behind
  unfold Still at still
  have value : o.low % 2 ^ 32 + o.first / 2 ^ 32 % 2 ^ 16 * 2 ^ 32 = o.low % 2 ^ 48 := by omega
  rw [OctetReads.readCtr48, MoonGen.readCtr48, still, if_neg (by simp), value]

theorem OctetReads.readCtr48_of_carry (carry : ¬o.Still) :
    o.readCtr48 last = .error "attempt to index global 'self' (a nil value)" := by
  have before := o.before
  have behind := o.behind
  have once := o.carry
  unfold Still at carry
  rw [OctetReads.readCtr48, MoonGen.readCtr48, if_pos (by omega)]

end

namespace RxTrajectory

variable (t : RxTrajectory)

/-- A call as long as no carry disturbs its reads. -/
theorem getRxStats_of_still {j : Nat} (still : (t.reads (j + 1)).Still) (initPkts initBytes : Int) :
    I40e.getRxStats ⟨t.uprc.tracked j, t.mprc.tracked j, t.bprc.tracked j, t.gorc.tracked j, initPkts, initBytes⟩
      (t.counts (j + 1)) =
      .ok ((t.uprc.tracked (j + 1) + t.mprc.tracked (j + 1) + t.bprc.tracked (j + 1) - initPkts,
        t.gorc.tracked (j + 1) - initBytes), ⟨t.uprc.tracked (j + 1), t.mprc.tracked (j + 1), t.bprc.tracked (j + 1),
          t.gorc.tracked (j + 1), initPkts, initBytes⟩) := by
  rw [I40e.getRxStats, counts, OctetReads.readCtr48_of_still _ _ still, t.low]
  rfl

/-- The device as long as no carry has disturbed a read. -/
theorem device_eq {j : Nat} (still : ∀ i ≤ j, (t.reads i).Still) : t.device j =
    .ok ⟨t.uprc.tracked j, t.mprc.tracked j, t.bprc.tracked j, t.gorc.tracked j, t.pkts 0, t.gorc.count 0⟩ := by
  induction j with
  | zero =>
    have small {W : Nat} (c : Trajectory W) : readCtr W (c.count 0 % W : Nat) 0 = c.count 0 := by
      rw [readCtr_eq, mod_eq_of_lt c.start, if_neg (by omega)]
    rw [device, I40e.init, counts, OctetReads.readCtr48_of_still _ _ (still 0 (Nat.le_refl 0)), t.low 0]
    simp only [Except.map, readCtr32, small]
    rfl
  | succ j ih =>
    rw [device, ih fun i bound => still i (by omega)]
    simp only [Except.bind, t.getRxStats_of_still (still (j + 1) (Nat.le_refl _)), Except.map]

/-- A carry between the reads of some call ends all of them. -/
theorem device_ne_ok {i j : Nat} (bound : i ≤ j) (carry : ¬(t.reads i).Still) (dev : I40e) : t.device j ≠ .ok dev := by
  induction j generalizing dev with
  | zero =>
    obtain rfl := le_zero.mp bound
    rw [device, I40e.init, counts, OctetReads.readCtr48_of_carry _ _ carry]
    exact nofun
  | succ j ih =>
    rw [device]
    cases before : t.device j with
    | error e => exact nofun
    | ok dev =>
      rcases Nat.lt_or_eq_of_le bound with earlier | rfl
      · exact absurd before (ih (by omega) dev)
      · rw [Except.bind, I40e.getRxStats, counts, OctetReads.readCtr48_of_carry _ _ carry]
        exact nofun

/-- The calls up to some one return what the hardware has counted since `init`. -/
def Right (n : Nat) : Prop := ∀ j ≤ n, ∃ dev,
  t.call j = .ok ((t.pkts (j + 1) - t.pkts 0, (t.gorc.count (j + 1) : Int) - t.gorc.count 0), dev)

/-- The totals are right exactly when no carry falls into a read and each counter
passes its end at most once, and not before the first call. -/
theorem right_iff (n : Nat) : t.Right n ↔ (∀ i ≤ n + 1, (t.reads i).Still) ∧
    t.uprc.WrapsOnce n ∧ t.mprc.WrapsOnce n ∧ t.bprc.WrapsOnce n ∧ t.gorc.WrapsOnce n := by
  simp only [← Trajectory.tracked_eq_iff]
  by_cases still : ∀ i ≤ n + 1, (t.reads i).Still
  · have each (j : Nat) (bound : j ≤ n) : (∃ dev,
        t.call j = .ok ((t.pkts (j + 1) - t.pkts 0, (t.gorc.count (j + 1) : Int) - t.gorc.count 0), dev)) ↔
        t.uprc.tracked (j + 1) = t.uprc.count (j + 1) ∧ t.mprc.tracked (j + 1) = t.mprc.count (j + 1) ∧
          t.bprc.tracked (j + 1) = t.bprc.count (j + 1) ∧ t.gorc.tracked (j + 1) = t.gorc.count (j + 1) := by
      rw [call, t.device_eq fun i earlier => still i (by omega)]
      simp only [Except.bind, t.getRxStats_of_still (still (j + 1) (by omega)), Except.ok.injEq, Prod.mk.injEq,
        exists_and_left, exists_eq', and_true]
      have uprc := t.uprc.tracked_le (j + 1)
      have mprc := t.mprc.tracked_le (j + 1)
      have bprc := t.bprc.tracked_le (j + 1)
      simp only [pkts]
      omega
    simp only [and_iff_right still, ← forall_and]
    exact forall₂_congr each
  · refine iff_of_false (fun right => still fun i bound => ?_) fun cond => still cond.1
    by_contra carry
    obtain ⟨dev, returned⟩ := right n (Nat.le_refl n)
    refine t.device_ne_ok bound carry dev ?_
    rw [call] at returned
    rw [device, returned]
    rfl

/-- The totals of `getRxStats`, and a single read of the octets: it returns what the
counter held during the read exactly when no carry falls into it. -/
theorem i40e_rx_stats_iff (n : Nat) (o : OctetReads) (last : Int) :
    (t.Right n ↔ (∀ i ≤ n + 1, (t.reads i).Still) ∧
      t.uprc.WrapsOnce n ∧ t.mprc.WrapsOnce n ∧ t.bprc.WrapsOnce n ∧ t.gorc.WrapsOnce n) ∧
    ((∃ c, o.first ≤ c ∧ c ≤ o.check ∧ o.readCtr48 last = .ok (readCtr (2 ^ 48) (c % 2 ^ 48 : Nat) last)) ↔
      o.Still) := by
  refine ⟨t.right_iff n, fun ⟨c, _, _, value⟩ => ?_, fun still => ?_⟩
  · by_contra carry
    rw [o.readCtr48_of_carry last carry] at value
    contradiction
  · exact ⟨o.low, o.before, o.behind, o.readCtr48_of_still last still⟩

end RxTrajectory

def Trajectory.still {W : Nat} (positive : 0 < W) : Trajectory W where
  count _ := 0
  start := positive
  grows _ := Nat.le_refl 0
  slow _ := by omega

theorem Trajectory.wrapsOnce_still {W : Nat} (positive : 0 < W) (n : Nat) : (Trajectory.still positive).WrapsOnce n :=
  ⟨positive, fun _ _ => by simp only [Trajectory.still]; omega⟩

/-- Half a turn of unicast packets between two calls, and no octets. -/
def halfTurns : RxTrajectory where
  uprc :=
    { count := fun j => j * 2 ^ 31
      start := by omega
      grows := fun j => by omega
      slow := fun j => by omega }
  mprc := .still (by decide)
  bprc := .still (by decide)
  gorc := .still (by decide)
  reads _ := ⟨0, 0, 0, Nat.le_refl 0, Nat.le_refl 0, by decide⟩
  low _ := rfl

/-- The second turn of the packet counter is lost, and an octet read across a carry
fails. -/
theorem i40e_second_turn_lost : halfTurns.Right 2 ∧ ¬halfTurns.Right 3 ∧
    readCtr48 0 (2 ^ 32 - 1) 1 0 = .error "attempt to index global 'self' (a nil value)" := by
  refine ⟨halfTurns.right_iff 2 |>.mpr ?_, fun right => ?_, rfl⟩
  · refine ⟨fun _ _ => rfl, ⟨by decide, fun j bound => ?_⟩, ?_, ?_, ?_⟩
    · change (j + 1) * 2 ^ 31 < 2 * 2 ^ 32
      omega
    all_goals exact Trajectory.wrapsOnce_still _ 2
  · have below := ((halfTurns.right_iff 3).mp right).2.1.2 3 (Nat.le_refl 3)
    change 4 * 2 ^ 31 < 2 * 2 ^ 32 at below
    omega

end MoonGen
