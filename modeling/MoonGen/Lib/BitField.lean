import Mathlib.Data.Nat.Bitwise

/-- The bits of a number from `low` on, `width` of them. -/
structure BitField where
  low : Nat
  width : Nat
deriving DecidableEq

namespace BitField

open Nat BitVec

def get (f : BitField) (w : Nat) : Nat := w / 2 ^ f.low % 2 ^ f.width

/-- The number with other bits in a field. -/
def put (f : BitField) (w v : Nat) : Nat :=
  2 ^ f.low * (2 ^ f.width * (w / 2 ^ f.low / 2 ^ f.width) + v % 2 ^ f.width) + w % 2 ^ f.low

/-- The number with all bits of a field. -/
def mask (f : BitField) : Nat := (2 ^ f.width - 1) <<< f.low

/-- Two fields have no bit in common. -/
def Apart (f g : BitField) : Prop := f.low + f.width ≤ g.low ∨ g.low + g.width ≤ f.low

instance (f g : BitField) : Decidable (f.Apart g) := inferInstanceAs (Decidable (_ ∨ _))

variable (f : BitField) {w v : Nat}

theorem testBit_get (i : Nat) : (f.get w).testBit i = (decide (i < f.width) && w.testBit (i + f.low)) := by
  rw [get, testBit_mod_two_pow, testBit_div_two_pow]

theorem testBit_put (i : Nat) :
    (f.put w v).testBit i = if f.low ≤ i ∧ i < f.low + f.width then v.testBit (i - f.low) else w.testBit i := by
  have rest : w % 2 ^ f.low < 2 ^ f.low := mod_lt _ (Nat.two_pow_pos _)
  have value : v % 2 ^ f.width < 2 ^ f.width := mod_lt _ (Nat.two_pow_pos _)
  rw [put, testBit_two_pow_mul_add _ rest, testBit_two_pow_mul_add _ value]
  by_cases below : i < f.low
  · rw [if_pos below, if_neg (by omega), testBit_mod_two_pow, decide_eq_true below, Bool.true_and]
  · by_cases inside : i - f.low < f.width
    · rw [if_neg below, if_pos inside, if_pos (by omega), testBit_mod_two_pow, decide_eq_true inside,
        Bool.true_and]
    · rw [if_neg below, if_neg inside, if_neg (by omega), testBit_div_two_pow, testBit_div_two_pow]
      congr 1
      omega

theorem testBit_mask (i : Nat) : f.mask.testBit i = decide (f.low ≤ i ∧ i < f.low + f.width) := by
  rw [mask, testBit_shiftLeft, testBit_two_pow_sub_one, ← Bool.decide_and, decide_eq_decide]
  omega

theorem put_congr {v' : Nat} (same : v % 2 ^ f.width = v' % 2 ^ f.width) : f.put w v = f.put w v' := by
  rw [put, same, put]

theorem get_put : f.get (f.put w v) = v % 2 ^ f.width := by
  apply eq_of_testBit_eq
  intro i
  rw [testBit_get, testBit_put, testBit_mod_two_pow]
  by_cases inside : i < f.width
  · rw [if_pos (by omega), Nat.add_sub_cancel]
  · rw [decide_eq_false inside, Bool.false_and, Bool.false_and]

theorem get_put_of_apart {g : BitField} (apart : f.Apart g) : g.get (f.put w v) = g.get w := by
  apply eq_of_testBit_eq
  intro i
  rw [testBit_get, testBit_get, testBit_put]
  by_cases inside : i < g.width
  · rw [if_neg (by rcases apart with before | behind <;> omega)]
  · rw [decide_eq_false inside, Bool.false_and, Bool.false_and]

/-- The second of two values stays. -/
theorem put_put {v' : Nat} : f.put (f.put w v) v' = f.put w v' := by
  apply eq_of_testBit_eq
  intro i
  rw [testBit_put, testBit_put, testBit_put]
  by_cases own : f.low ≤ i ∧ i < f.low + f.width
  · rw [if_pos own, if_pos own]
  · rw [if_neg own, if_neg own, if_neg own]

theorem put_comm {g : BitField} (apart : f.Apart g) (v' : Nat) : g.put (f.put w v) v' = f.put (g.put w v') v := by
  apply eq_of_testBit_eq
  intro i
  rw [testBit_put, testBit_put, testBit_put, testBit_put]
  by_cases own : f.low ≤ i ∧ i < f.low + f.width
  · have other : ¬(g.low ≤ i ∧ i < g.low + g.width) := by
      rcases apart with before | behind <;> omega
    rw [if_neg other, if_pos own, if_pos own]
  · rw [if_neg own, if_neg own]

theorem getLsbD_of_lt {n m i : Nat} {w : BitVec n} (word : w.toNat < 2 ^ m) (high : m ≤ i) : w.getLsbD i = false := by
  rw [← testBit_toNat]
  exact testBit_lt_two_pow (Nat.lt_of_lt_of_le word (Nat.pow_le_pow_right (by decide) high))

/-- The bits of the other fields are kept. -/
theorem getLsbD_and_keep {n m : Nat} (narrow : m ≤ n) {w keep : BitVec n} (word : w.toNat < 2 ^ m)
    (others : keep = .ofNat n (f.mask ^^^ (2 ^ m - 1))) (i : Nat) :
    (w &&& keep).getLsbD i = if f.low ≤ i ∧ i < f.low + f.width then false else w.getLsbD i := by
  rw [others]
  simp only [getLsbD_and, getLsbD_ofNat, testBit_xor, testBit_mask, testBit_two_pow_sub_one]
  by_cases short : i < m
  · by_cases own : f.low ≤ i ∧ i < f.low + f.width
    · simp [own, short]
    · simp [own, short, Nat.lt_of_lt_of_le short narrow]
  · have zero := getLsbD_of_lt word (Nat.not_lt.mp short)
    simp [zero]

section
variable {m : Nat} (inside : f.low + f.width ≤ m)
include inside

theorem put_lt (word : w < 2 ^ m) : f.put w v < 2 ^ m := by
  apply lt_pow_two_of_testBit
  intro i high
  rw [testBit_put, if_neg (by omega)]
  exact testBit_lt_two_pow (Nat.lt_of_lt_of_le word (Nat.pow_le_pow_right (by decide) high))

/-- A field in the low part of a number. -/
theorem put_low (hi : Nat) (word : w < 2 ^ m) : f.put (2 ^ m * hi + w) v = 2 ^ m * hi + f.put w v := by
  apply eq_of_testBit_eq
  intro i
  rw [testBit_put, testBit_two_pow_mul_add _ word, testBit_two_pow_mul_add _ (f.put_lt inside word), testBit_put]
  by_cases low : i < m
  · rw [if_pos low, if_pos low]
  · rw [if_neg low, if_neg low, if_neg (by omega)]

/-- A field is set by what is left of the other bits and the value in its place. -/
theorem toNat_or_and {n : Nat} (narrow : m ≤ n) {w v mask keep : BitVec n} (word : w.toNat < 2 ^ m)
    (bits : mask = .ofNat n f.mask) (others : keep = .ofNat n (f.mask ^^^ (2 ^ m - 1))) :
    ((w &&& keep) ||| ((v <<< f.low) &&& mask)).toNat = f.put w.toNat v.toNat := by
  apply eq_of_testBit_eq
  intro i
  rw [testBit_put, testBit_toNat, getLsbD_or, f.getLsbD_and_keep narrow word others, bits]
  simp only [testBit_toNat, getLsbD_and, getLsbD_ofNat, testBit_mask, getLsbD_shiftLeft]
  by_cases own : f.low ≤ i ∧ i < f.low + f.width
  · have short : i < n := by omega
    simp [own, short, Nat.not_lt.mpr own.1]
  · simp [own]

end

/-- A field in both parts of a number. -/
theorem put_both (low high : BitField) {m : Nat} (hi : Nat) (word : w < 2 ^ m) (first : low.low = f.low)
    (second : low.low + low.width = m) (third : high.low = 0) (fourth : m + high.width = f.low + f.width) :
    f.put (2 ^ m * hi + w) v = 2 ^ m * high.put hi (v / 2 ^ low.width) + low.put w v := by
  apply eq_of_testBit_eq
  intro i
  rw [testBit_put, testBit_two_pow_mul_add _ word, testBit_two_pow_mul_add _ (low.put_lt second.le word),
    testBit_put, testBit_put, testBit_div_two_pow, first, third]
  by_cases below : i < m
  · rw [if_pos below, if_pos below]
    by_cases own : f.low ≤ i
    · rw [if_pos (by omega), if_pos (by omega)]
    · rw [if_neg (by omega), if_neg (by omega)]
  · rw [if_neg below, if_neg below]
    by_cases own : i < f.low + f.width
    · rw [if_pos (by omega), if_pos (by omega)]
      congr 1
      omega
    · rw [if_neg (by omega), if_neg (by omega)]

/-- Without a mask a value reaches to the end of the word. -/
theorem toNat_or_shiftLeft {n m : Nat} (narrow : m ≤ n) {w v keep : BitVec n} (word : w.toNat < 2 ^ m)
    (last : f.low + f.width = m) (others : keep = .ofNat n (f.mask ^^^ (2 ^ m - 1))) :
    ((w &&& keep) ||| (v <<< f.low)).toNat % 2 ^ m = f.put w.toNat v.toNat := by
  apply eq_of_testBit_eq
  intro i
  rw [testBit_put, testBit_mod_two_pow, testBit_toNat, getLsbD_or, f.getLsbD_and_keep narrow word others]
  simp only [testBit_toNat, getLsbD_shiftLeft]
  by_cases own : f.low ≤ i ∧ i < f.low + f.width
  · have short : i < m := by omega
    simp [own, short, Nat.lt_of_lt_of_le short narrow, Nat.not_lt.mpr own.1]
  · by_cases short : i < m
    · have before : i < f.low := by omega
      simp [own, short, before]
    · simp [own, short, getLsbD_of_lt word (Nat.not_lt.mp short)]

/-- A field in the high part of a number. -/
theorem put_high {g : BitField} {m lo : Nat} (place : g.low = f.low + m) (width : g.width = f.width) (hi : Nat)
    (small : lo < 2 ^ m) : g.put (2 ^ m * hi + lo) v = 2 ^ m * f.put hi v + lo := by
  apply eq_of_testBit_eq
  intro i
  rw [testBit_put, testBit_two_pow_mul_add _ small, testBit_two_pow_mul_add _ small, testBit_put, place, width]
  by_cases low : i < m
  · rw [if_pos low, if_pos low, if_neg (by omega)]
  · rw [if_neg low, if_neg low]
    by_cases own : f.low ≤ i - m ∧ i - m < f.low + f.width
    · rw [if_pos own, if_pos (by omega), Nat.sub_sub, Nat.add_comm]
    · rw [if_neg own, if_neg (by omega)]

theorem toNat_and_shiftRight {n : Nat} (narrow : f.width ≤ n) {w mask : BitVec n}
    (bits : mask = .ofNat n (2 ^ f.width - 1)) : ((w >>> f.low) &&& mask).toNat = f.get w.toNat := by
  have small : 2 ^ f.width - 1 < 2 ^ n :=
    Nat.lt_of_lt_of_le (sub_lt (Nat.two_pow_pos _) Nat.one_pos) (Nat.pow_le_pow_right (by decide) narrow)
  rw [bits, toNat_and, toNat_ushiftRight, toNat_ofNat, mod_eq_of_lt small,
    and_two_pow_sub_one_eq_mod, shiftRight_eq_div_pow, get]

end BitField
