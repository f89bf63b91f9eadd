import Mathlib.Algebra.Group.Int.Defs
import Mathlib.Algebra.Group.Nat.Defs

namespace LuaBit

/-- What a bit operation takes from a number. All of them return the number with a sign that
32 bits stand for. -/
def bits (n : Int) : BitVec 32 := .ofInt 32 n

def band (a b : Int) : Int := (bits a &&& bits b).toInt

def bor (a b : Int) : Int := (bits a ||| bits b).toInt

def bnot (a : Int) : Int := (~~~bits a).toInt

/-- Of the second argument the low five bits are used. -/
def lshift (a n : Int) : Int := (bits a <<< (n % 32).toNat).toInt

@[simp]
theorem bits_toInt (w : BitVec 32) : bits w.toInt = w := BitVec.ofInt_toInt

@[simp]
theorem bits_band (a b : Int) : bits (band a b) = bits a &&& bits b := bits_toInt _

@[simp]
theorem bits_bnot (a : Int) : bits (bnot a) = ~~~bits a := bits_toInt _

@[simp]
theorem bits_lshift (a n : Int) : bits (lshift a n) = bits a <<< (n % 32).toNat := bits_toInt _

theorem toNat_bits (n : Int) : (bits n).toNat = (n % 2 ^ 32).toNat := BitVec.toNat_ofInt ..

/-- The number that an operation returns for a word. -/
def signed (w : Nat) : Int := (BitVec.ofNat 32 w).toInt

theorem toNat_bits_signed {w : Nat} (word : w < 2 ^ 32) : (bits (signed w)).toNat = w := by
  rw [signed, bits_toInt, BitVec.toNat_ofNat, Nat.mod_eq_of_lt word]

theorem bits_of_nonneg {n : Int} (nonneg : 0 ≤ n) : bits n = .ofNat 32 n.toNat := by
  rw [bits, ← BitVec.ofInt_natCast, Int.toNat_of_nonneg nonneg]

/-- One bit in its place. -/
theorem bits_lshift_one {idx : Int} (low : 0 ≤ idx) (high : idx ≤ 31) :
    bits (lshift 1 idx) = BitVec.twoPow 32 idx.toNat := by
  rw [bits_lshift, Int.emod_eq_of_lt low (by omega), BitVec.twoPow_eq]
  rfl

/-- Zeros come in from the left. -/
def rshift (a n : Int) : Int := (bits a >>> (n % 32).toNat).toInt

theorem toNat_bits_natCast {n : Nat} (word : n < 2 ^ 32) : (bits (n : Int)).toNat = n := by
  rw [toNat_bits]
  omega

theorem toInt_of_small {w : BitVec 32} {n : Nat} (same : w.toNat = n) (small : n < 2 ^ 31) : w.toInt = n := by
  rw [BitVec.toInt_eq_toNat_of_lt (by rw [same]; omega), same]

/-- A shift to the right is a division. Without a shift the number may get a sign. -/
theorem rshift_natCast {a : Nat} {n : Int} (word : a < 2 ^ 32) (positive : 0 < n) (count : n < 32) :
    rshift a n = (a / 2 ^ n.toNat : Nat) := by
  have step : 2 ^ 1 ≤ 2 ^ n.toNat := Nat.pow_le_pow_right (by decide) (by omega)
  have half : a / 2 ^ n.toNat ≤ a / 2 ^ 1 := Nat.div_le_div_left step (by decide)
  refine toInt_of_small ?_ (by omega)
  rw [Int.emod_eq_of_lt (by omega) count, BitVec.toNat_ushiftRight, toNat_bits_natCast word, Nat.shiftRight_eq_div_pow]

end LuaBit
