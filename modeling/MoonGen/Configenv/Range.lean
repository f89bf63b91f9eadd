import Mathlib.Algebra.Order.Group.Nat
import Mathlib.Data.Nat.ModEq
import Mathlib.Tactic.Ring

namespace MoonGen

open Nat

/-- The function that `env.range` returns, with the variables it closes over. -/
structure RangeFn where
  start : Int
  limit : Option Int
  step : Int
  v : Int
  deriving DecidableEq, Repr

def range (start : Int) (limit step : Option Int) : RangeFn :=
  let step := step.getD 1
  { start, limit, step, v := start - step }

namespace RangeFn

/-- A call, which returns the new value of `v`. -/
def call (f : RangeFn) : RangeFn :=
  match f.limit with
  | none => { f with v := f.v + f.step }
  | some limit => { f with v := if limit < f.v then f.start else f.v + f.step }

/-- What the call after `i` others returns. -/
def value (f : RangeFn) : Nat → Int
  | 0 => f.call.v
  | i + 1 => f.call.value i

theorem value_succ (f : RangeFn) (i : Nat) : f.value (i + 1) = (f.call).value i := rfl

/-- A number has the same remainder by `k` and by `k + 1` only at the start of a
turn of both. -/
theorem mod_succ_eq_mod_iff {k : Nat} (positive : 0 < k) (m : Nat) : m % (k + 1) = m % k ↔ m % (k * (k + 1)) < k := by
  constructor
  · intro same
    have below : m % k < k := mod_lt m positive
    have left : Nat.ModEq k m (m % k) := (mod_modEq m k).symm
    have right : Nat.ModEq (k + 1) m (m % k) := by
      rw [← same]
      exact (mod_modEq m (k + 1)).symm
    have both : Nat.ModEq (k * (k + 1)) m (m % k) :=
      (modEq_and_modEq_iff_modEq_mul (coprime_self_add_right.mpr (coprime_one_right k))).mp ⟨left, right⟩
    have small : m % k < k * (k + 1) := below.trans_le (Nat.le_mul_of_pos_right k (succ_pos k))
    rw [both, mod_eq_of_lt small]
    exact below
  · intro start
    rw [← mod_mod_of_dvd m (Nat.dvd_mul_left (k + 1) k), ← mod_mod_of_dvd m (Nat.dvd_mul_right k (k + 1)),
      mod_eq_of_lt start, mod_eq_of_lt (start.trans (lt_succ_self k))]

section
variable {start limit step : Int} (order : start ≤ limit) (positive : 1 ≤ step)
include order positive

/-- The multiples of `step` behind `start` up to the limit are those below `k`. -/
theorem start_add_le_limit_iff (m : Nat) : start + step * m ≤ limit ↔ m < ((limit - start) / step).toNat + 1 := by
  have quotient : 0 ≤ (limit - start) / step := Int.ediv_nonneg (by omega) (by omega)
  rw [Nat.lt_succ_iff, ← Int.ofNat_le, Int.toNat_of_nonneg quotient, Int.le_ediv_iff_mul_le (by omega), Int.mul_comm]
  omega

/-- The test looks at the value returned before, so that the values run through
one more place than there are up to the limit. -/
theorem call_of_place {m : Nat} (within : m ≤ ((limit - start) / step).toNat + 1) :
    call ⟨start, some limit, step, start + step * m⟩ =
      ⟨start, some limit, step, start + step * ((m + 1) % (((limit - start) / step).toNat + 2) : Nat)⟩ := by
  have upto := start_add_le_limit_iff order positive m
  unfold call
  dsimp only
  split
  · rename_i behind
    have last : m + 1 = ((limit - start) / step).toNat + 2 := by omega
    rw [last, mod_self, cast_zero, Int.mul_zero, Int.add_zero]
  · rename_i inside
    rw [mod_eq_of_lt (by omega)]
    push_cast
    rw [Int.mul_add, Int.mul_one, Int.add_assoc]

theorem value_of_place {m : Nat} (within : m ≤ ((limit - start) / step).toNat + 1) (i : Nat) :
    value ⟨start, some limit, step, start + step * m⟩ i =
      start + step * ((m + 1 + i) % (((limit - start) / step).toNat + 2) : Nat) := by
  induction i generalizing m with
  | zero => rw [value, call_of_place order positive within, Nat.add_zero]
  | succ i ih =>
    have next : (m + 1) % (((limit - start) / step).toNat + 2) ≤ ((limit - start) / step).toNat + 1 :=
      le_of_lt_succ (mod_lt _ (by omega))
    rw [value_succ, call_of_place order positive within, ih next, Nat.add_assoc, mod_add_mod, Nat.add_comm 1 i]

/-- The values go round with one place too many, which lies behind the limit. -/
theorem value_limited (m : Nat) :
    (range start (some limit) (some step)).value m =
      start + step * (m % (((limit - start) / step).toNat + 2) : Nat) := by
  have first : (range start (some limit) (some step)).call = ⟨start, some limit, step, start + step * (0 : Nat)⟩ := by
    have before : ¬limit < start - step := by omega
    simp [range, call, before]
  cases m with
  | zero =>
    rw [value, first, zero_mod]
  | succ m =>
    rw [value_succ, first, value_of_place order positive (Nat.zero_le _), Nat.zero_add, Nat.add_comm 1 m]

end

end RangeFn

open RangeFn

/-- The call after `m` others returns what a range of `k` values would return,
and stays within its bounds, exactly at the start of each `k` turns of the
`k + 1` values that it does return. -/
theorem range_value_iff {start limit step : Int} (order : start ≤ limit) (positive : 1 ≤ step) (m : Nat) :
    let k := (limit - start) / step + 1
    let value := (range start (some limit) (some step)).value m
    (value = start + step * (m % k) ∧ start ≤ value ∧ value ≤ limit) ↔ m % (k * (k + 1)) < k := by
  obtain ⟨n, quotient⟩ : ∃ n : Nat, (limit - start) / step = n :=
    Int.eq_ofNat_of_zero_le (Int.ediv_nonneg (by omega) (by omega))
  have upto := start_add_le_limit_iff order positive (m % (n + 2))
  rw [quotient, Int.toNat_natCast] at upto
  have at_m := value_limited order positive m
  rw [quotient, Int.toNat_natCast] at at_m
  dsimp only
  rw [at_m, quotient, upto]
  have casts : (m : Int) % ((n : Int) + 1) = (m % (n + 1) : Nat) ∧
      ((m : Int) % (((n : Int) + 1) * ((n : Int) + 1 + 1)) < (n : Int) + 1 ↔ m % ((n + 1) * (n + 2)) < n + 1) := by
    refine ⟨by push_cast; rfl, ?_⟩
    rw [← Int.ofNat_lt]
    push_cast
    rfl
  rw [casts.1, casts.2, ← mod_succ_eq_mod_iff (succ_pos n)]
  have cancel : start + step * ((m % (n + 2) : Nat) : Int) = start + step * ((m % (n + 1) : Nat) : Int) ↔
      m % (n + 2) = m % (n + 1) := by
    rw [add_right_inj, Int.mul_eq_mul_left_iff (by omega), Int.ofNat_inj]
  have above : start ≤ start + step * ((m % (n + 2) : Nat) : Int) :=
    Int.le_add_of_nonneg_right (Int.mul_nonneg (by omega) (Int.natCast_nonneg _))
  have below : m % (n + 1) < n + 1 := mod_lt m (succ_pos n)
  rw [cancel]
  constructor
  · exact fun holds => holds.1
  · exact fun same => ⟨same, above, same ▸ below⟩

theorem range_value_iff_first : (range 1 (some 10) (some 3)).value 3 = 10 ∧
    (range 1 (some 10) (some 3)).value 20 = 1 := by
  have fourth := (range_value_iff (by decide : (1 : Int) ≤ 10) (by decide : (1 : Int) ≤ 3) 3).mpr (by decide)
  have later := (range_value_iff (by decide : (1 : Int) ≤ 10) (by decide : (1 : Int) ≤ 3) 20).mpr (by decide)
  exact ⟨fourth.1, later.1⟩

/-- The fourth value of a range from 1 to 3 is 4. -/
theorem range_value_behind : (range 1 (some 3) (some 1)).value 3 = 4 ∧
    ¬(range 1 (some 3) (some 1)).value 3 = 1 + 1 * (3 % ((3 - 1) / 1 + 1)) := by
  decide

end MoonGen
