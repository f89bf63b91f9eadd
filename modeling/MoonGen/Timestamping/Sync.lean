import Mathlib.Data.UInt
import Mathlib.Algebra.Order.Group.Abs
import Mathlib.Algebra.Order.Group.Int
import Mathlib.Data.Finset.Card
import Mathlib.Data.List.FinRange
import MoonGen.Lib.OrderStatistic

namespace MoonGen

/-- The registers of a device for its clock and the adjustment of it. -/
structure ClockRegisters where
  timl : UInt32
  timh : UInt32
  adjl : UInt32
  adjh : UInt32

structure RegWrite where
  port : UInt8
  reg : UInt32
  value : UInt32
deriving DecidableEq, Repr

/-- What the four reads of a run give. -/
structure ClockReads where
  x1 : UInt32
  x2 : UInt32
  y1 : UInt32
  y2 : UInt32
deriving DecidableEq, Repr

/-- The conversion to a signed word of 32 bits. -/
def toInt32 (n : Int) : Int := n.bmod (2 ^ 32)

/-- The function `abs`, whose argument is a signed word. -/
def abs32 (n : Int) : Int := toInt32 |toInt32 n|

/-- The body of the loop over the runs. -/
def ClockReads.offs (r : ClockReads) : Int :=
  let x1 : Int := r.x1.toNat
  let x2 : Int := r.x2.toNat
  let y1 : Int := r.y1.toNat
  let y2 : Int := r.y2.toNat
  let deltaT := abs32 ((x1 - x2 - (y2 - y1)).tdiv 2)
  toInt32 (deltaT + x1 - x2)

abbrev numRuns : Nat := 7

/-- The writes that reset the clocks. -/
def clockResets (port1 port2 : UInt8) (regs : ClockRegisters) : List RegWrite :=
  [⟨port1, regs.timl, 0⟩, ⟨port2, regs.timl, 0⟩, ⟨port1, regs.timh, 0⟩, ⟨port2, regs.timh, 0⟩]

/-- The writes to the registers, given what is read from the clocks. As equal numbers cannot be
told apart, any way to sort the offsets gives the same list. -/
def libmoonSyncClocks (port1 port2 : UInt8) (regs : ClockRegisters) (reads : Fin numRuns → ClockReads) :
    List RegWrite :=
  let resets := clockResets port1 port2 regs
  if port1 = port2 then resets
  else
    let restart := [⟨port1, regs.timl, 0⟩, ⟨port2, regs.timl, 0⟩]
    let offsets := (List.finRange numRuns).map fun i => (reads i).offs
    match orderStat offsets (numRuns / 2) with
    | none => resets ++ restart
    | some offs =>
      resets ++ restart ++
        if offs ≠ 0 then
          [⟨port2, regs.adjl, UInt32.ofNat offs.natAbs⟩, ⟨port2, regs.adjh, if offs < 0 then 2 ^ 31 else 0⟩]
        else []

/-- The four reads are made one after another at times of one clock that is `a` behind the first
device's and `b` behind the second's, and the first two are as far apart as the last two. -/
def ClockReads.Symmetric (r : ClockReads) (a b : Int) : Prop :=
  ∃ t1 t2 t3 t4 : Int, t1 ≤ t2 ∧ t2 ≤ t3 ∧ t3 ≤ t4 ∧ t2 - t1 = t4 - t3 ∧
    (r.x1.toNat : Int) = t1 + a ∧ (r.x2.toNat : Int) = t2 + b ∧ (r.y1.toNat : Int) = t3 + b ∧
    (r.y2.toNat : Int) = t4 + a

theorem toInt32_of_small {n : Int} (low : -2 ^ 31 ≤ n) (high : n < 2 ^ 31) : toInt32 n = n :=
  Int.bmod_eq_of_le (by simpa using low) (by simpa using high)

/-- The time between two reads cancels out. -/
theorem ClockReads.Symmetric.offs_eq {r : ClockReads} {a b : Int} (symmetric : r.Symmetric a b)
    (close : |a - b| < 2 ^ 30) : r.offs = a - b := by
  obtain ⟨t1, t2, t3, t4, first, second, third, same, x1, x2, y1, y2⟩ := symmetric
  have bound := r.y2.toNat_lt
  obtain ⟨low, high⟩ := abs_lt.mp close
  have halved : ((r.x1.toNat : Int) - r.x2.toNat - (r.y2.toNat - r.y1.toNat)).tdiv 2 = -(t2 - t1) := by
    have twice : (r.x1.toNat : Int) - r.x2.toNat - (r.y2.toNat - r.y1.toNat) = 2 * -(t2 - t1) := by omega
    rw [twice, Int.mul_tdiv_cancel_left _ (by decide)]
  have latency : abs32 (-(t2 - t1)) = t2 - t1 := by
    have word : toInt32 (-(t2 - t1)) = -(t2 - t1) := toInt32_of_small (by omega) (by omega)
    rw [abs32, word, abs_neg, abs_of_nonneg (by omega)]
    exact toInt32_of_small (by omega) (by omega)
  simp only [offs, halved, latency]
  have offset : t2 - t1 + (r.x1.toNat : Int) - r.x2.toNat = a - b := by omega
  rw [offset]
  exact toInt32_of_small (by omega) (by omega)

/-- Four runs of seven decide the median. -/
theorem offsets_median {reads : Fin numRuns → ClockReads} {a b : Int} (close : |a - b| < 2 ^ 30)
    {good : Finset (Fin numRuns)} (most : 4 ≤ good.card) (symmetric : ∀ i ∈ good, (reads i).Symmetric a b) :
    orderStat ((List.finRange numRuns).map fun i => (reads i).offs) (numRuns / 2) = some (a - b) := by
  have length : ((List.finRange numRuns).map fun i => (reads i).offs).length = numRuns := by simp
  have among : good ⊆ ((List.finRange numRuns).filter fun i => (reads i).offs == a - b).toFinset := by
    intro i member
    simp [(symmetric i member).offs_eq close]
  have count : good.card ≤ ((List.finRange numRuns).map fun i => (reads i).offs).count (a - b) := by
    rw [List.count_eq_countP, List.countP_map, List.countP_eq_length_filter]
    exact (Finset.card_le_card among).trans (List.toFinset_card_le _)
  have half : numRuns < 2 * ((List.finRange numRuns).map fun i => (reads i).offs).count (a - b) := by
    show 7 < _
    omega
  have middle := orderStat_middle_of_count (length.trans_lt half)
  rwa [length] at middle

/-- The clocks of two ports are `a` and `b` ahead of a common one, and four of the runs take as
long from the first read to the second as from the third to the fourth. Then the second clock is
adjusted by what the first one is ahead of it, and left alone if that is nothing. -/
theorem libmoonSyncClocks_adjusts (port1 port2 : UInt8) (regs : ClockRegisters) (reads : Fin numRuns → ClockReads)
    (a b : Int) (clocks : port1 = port2 → a = b) (close : |a - b| < 2 ^ 30) (good : Finset (Fin numRuns))
    (most : 4 ≤ good.card) (symmetric : ∀ i ∈ good, (reads i).Symmetric a b) :
    ∃ magnitude : UInt32, magnitude.toNat = (a - b).natAbs ∧
      libmoonSyncClocks port1 port2 regs reads =
        clockResets port1 port2 regs ++
          (if port1 = port2 then [] else [⟨port1, regs.timl, 0⟩, ⟨port2, regs.timl, 0⟩]) ++
          if a = b then []
          else [⟨port2, regs.adjl, magnitude⟩, ⟨port2, regs.adjh, if a - b < 0 then 2 ^ 31 else 0⟩] := by
  have median := offsets_median close most symmetric
  obtain ⟨low, high⟩ := abs_lt.mp close
  refine ⟨UInt32.ofNat (a - b).natAbs, UInt32.toNat_ofNat_of_lt' (by simp only [UInt32.size]; omega), ?_⟩
  by_cases port : port1 = port2
  · simp only [libmoonSyncClocks, if_pos port, if_pos (clocks port), List.append_nil]
  · simp only [libmoonSyncClocks, if_neg port, median]
    by_cases same : a = b
    · rw [if_pos same, if_neg (by omega)]
    · rw [if_neg same, if_pos (by omega)]

/-- Four runs with reads three apart, against three that say anything. -/
theorem libmoonSyncClocks_adjusts_sixty :
    ∃ magnitude : UInt32, magnitude.toNat = 60 ∧
      libmoonSyncClocks 0 1 ⟨1, 2, 3, 4⟩ (fun i => if i < 4 then ⟨110, 53, 60, 123⟩ else ⟨0, 4294967295, 7, 9⟩) =
        clockResets 0 1 ⟨1, 2, 3, 4⟩ ++ [⟨0, 1, 0⟩, ⟨1, 1, 0⟩] ++ [⟨1, 3, magnitude⟩, ⟨1, 4, 0⟩] :=
  libmoonSyncClocks_adjusts 0 1 ⟨1, 2, 3, 4⟩ _ 100 40 (by decide) (by decide) {0, 1, 2, 3}
    (by decide) fun i member => by
    have early : i < 4 := by
      revert i
      decide
    rw [if_pos early]
    exact ⟨10, 13, 20, 23, by decide, by decide, by decide, by decide, rfl, rfl, rfl, rfl⟩

end MoonGen
