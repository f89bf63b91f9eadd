import Mathlib.Data.Int.Log
import Mathlib.Data.Rat.Floor
import Mathlib.Tactic.Linarith
import MoonGen.Lib.Lua

/-- Arithmetic on `double`. How it rounds is left open, and so is what becomes of
a value that an integer type cannot hold. -/
class Double (D : Type) extends Add D, Sub D, Mul D, Div D where
  floor : D → D
  ofUInt64 : UInt64 → D
  toUInt32 : D → UInt32
  toUInt64 : D → UInt64
  toInt64 : D → Int64

/-- Exact arithmetic. -/
instance : Double ℚ where
  floor x := ⌊x⌋
  ofUInt64 x := x.toNat
  toUInt32 x := .ofNat ⌊x⌋.toNat
  toUInt64 x := .ofNat ⌊x⌋.toNat
  toInt64 x := .ofInt ⌊x⌋

namespace Binary64

/-- The nearest integer, of two the even one. -/
def roundEven (x : ℚ) : ℤ :=
  let low := ⌊x⌋
  let rest := x - low
  if rest < 1 / 2 ∨ rest = 1 / 2 ∧ low % 2 = 0 then low else low + 1

theorem abs_roundEven_sub_le (x : ℚ) : |roundEven x - x| ≤ 1 / 2 := by
  have least := Int.floor_le x
  have most := Int.lt_floor_add_one x
  rw [roundEven]
  split_ifs with down
  · have half : x - ⌊x⌋ ≤ 1 / 2 := down.elim le_of_lt fun tie => tie.1.le
    rw [abs_le]
    constructor <;> linarith
  · have half : 1 / 2 ≤ x - ⌊x⌋ := not_lt.mp fun less => down (.inl less)
    push_cast
    rw [abs_le]
    constructor <;> linarith

variable {n : ℤ} {x : ℚ}

theorem le_roundEven (least : n ≤ x) : n ≤ roundEven x := by
  have near := (abs_le.mp (abs_roundEven_sub_le x)).1
  have above : (n : ℚ) < roundEven x + 1 := by linarith
  exact Int.lt_add_one_iff.mp (by exact_mod_cast above)

theorem roundEven_le (most : x ≤ n) : roundEven x ≤ n := by
  have near := (abs_le.mp (abs_roundEven_sub_le x)).2
  have below : (roundEven x : ℚ) < n + 1 := by linarith
  exact Int.lt_add_one_iff.mp (by exact_mod_cast below)

theorem roundEven_intCast (n : ℤ) : roundEven n = n := le_antisymm (roundEven_le le_rfl) (le_roundEven le_rfl)

/-- The exponent of the last place of the doubles about a number. -/
def lastPlace (x : ℚ) : ℤ := max (Int.log 2 |x| - 52) (-1074)

/-- The nearest number with a mantissa of 53 bits. -/
def rounded (x : ℚ) : ℚ := roundEven (x / 2 ^ lastPlace x) * 2 ^ lastPlace x

theorem two_zpow_pos (e : ℤ) : (0 : ℚ) < 2 ^ e := zpow_pos two_pos e

theorem rounded_zero : rounded 0 = 0 := by decide +kernel

theorem lastPlace_le {k : ℤ} (apart : x ≠ 0) (small : |x| < 2 ^ k) (normal : -1021 ≤ k) : lastPlace x ≤ k - 53 := by
  have least : ((2 : ℕ) : ℚ) ^ Int.log 2 |x| ≤ |x| := Int.zpow_log_le_self one_lt_two (abs_pos.mpr apart)
  have below : (2 : ℚ) ^ Int.log 2 |x| < 2 ^ k := least.trans_lt small
  have log : Int.log 2 |x| < k := (zpow_lt_zpow_iff_right₀ one_lt_two).mp below
  rw [lastPlace]
  omega

/-- A multiple of a power of two is one of every smaller power. -/
theorem exists_multiple (n : ℤ) {e l : ℤ} (below : l ≤ e) : ∃ m : ℤ, (n * 2 ^ e : ℚ) / 2 ^ l = m := by
  obtain ⟨d, rest⟩ := Int.le.dest below
  refine ⟨n * 2 ^ d, ?_⟩
  rw [div_eq_iff (two_zpow_pos l).ne']
  push_cast
  rw [mul_assoc, ← zpow_natCast, ← zpow_add₀ two_ne_zero, add_comm, rest]

/-- A mantissa of 53 bits is kept. -/
theorem rounded_mantissa {e : ℤ} (short : |n| < 2 ^ 53) (normal : -1074 ≤ e) : rounded (n * 2 ^ e) = n * 2 ^ e := by
  rcases eq_or_ne n 0 with rfl | apart
  · rw [Int.cast_zero, zero_mul, rounded_zero]
  have small : |(n * 2 ^ e : ℚ)| < 2 ^ (53 + e) := by
    have cast : |(n : ℚ)| < 2 ^ (53 : ℤ) := by exact_mod_cast short
    rw [abs_mul, abs_of_pos (two_zpow_pos e), zpow_add₀ two_ne_zero]
    exact mul_lt_mul_of_pos_right cast (two_zpow_pos e)
  have nonzero : (n * 2 ^ e : ℚ) ≠ 0 := mul_ne_zero (Int.cast_ne_zero.mpr apart) (two_zpow_pos e).ne'
  have places := lastPlace_le nonzero small (by omega)
  obtain ⟨m, scaled⟩ := exists_multiple n (show lastPlace (n * 2 ^ e) ≤ e by omega)
  rw [rounded, scaled, roundEven_intCast, ← scaled, div_mul_cancel₀ _ (two_zpow_pos _).ne']

theorem rounded_intCast (short : |n| < 2 ^ 53) : rounded n = n := by
  have kept := @rounded_mantissa n 0 short (by decide)
  rwa [zpow_zero, mul_one] at kept

theorem rounded_natCast {n : Nat} (short : n < 2 ^ 53) : rounded n = n := by
  have kept := @rounded_intCast n (by rw [Nat.abs_cast]; exact_mod_cast short)
  rwa [Int.cast_natCast] at kept

/-- The error is at most half a unit of the last place. -/
theorem abs_rounded_sub_le {k : ℤ} (small : |x| < 2 ^ k) (normal : -1021 ≤ k) : |rounded x - x| ≤ 2 ^ (k - 54) := by
  rcases eq_or_ne x 0 with rfl | apart
  · rw [rounded_zero, sub_zero, abs_zero]
    exact (two_zpow_pos _).le
  have unit := two_zpow_pos (lastPlace x)
  have scaled : rounded x - x = (roundEven (x / 2 ^ lastPlace x) - x / 2 ^ lastPlace x) * 2 ^ lastPlace x := by
    rw [rounded, sub_mul, div_mul_cancel₀ x unit.ne']
  calc |rounded x - x| = |roundEven (x / 2 ^ lastPlace x) - x / 2 ^ lastPlace x| * 2 ^ lastPlace x := by
        rw [scaled, abs_mul, abs_of_pos unit]
    _ ≤ 1 / 2 * 2 ^ lastPlace x := mul_le_mul_of_nonneg_right (abs_roundEven_sub_le _) unit.le
    _ ≤ 1 / 2 * 2 ^ (k - 53) := by
        have places := zpow_le_zpow_right₀ (one_le_two : (1 : ℚ) ≤ 2) (lastPlace_le apart small normal)
        linarith
    _ = 2 ^ (k - 54) := by
        rw [show k - 53 = (k - 54) + 1 by omega, zpow_add_one₀ two_ne_zero]
        ring

/-- The error against the number itself. -/
theorem abs_rounded_sub_le_mul (normal : x = 0 ∨ 2 ^ (-1022 : ℤ) ≤ |x|) : |rounded x - x| ≤ |x| * 2 ^ (-53 : ℤ) := by
  rcases eq_or_ne x 0 with rfl | apart
  · rw [rounded_zero, sub_zero, abs_zero, zero_mul]
  have least : ((2 : ℕ) : ℚ) ^ Int.log 2 |x| ≤ |x| := Int.zpow_log_le_self one_lt_two (abs_pos.mpr apart)
  have most : |x| < ((2 : ℕ) : ℚ) ^ (Int.log 2 |x| + 1) := Int.lt_zpow_succ_log_self one_lt_two |x|
  have log : -1022 < Int.log 2 |x| + 1 :=
    (zpow_lt_zpow_iff_right₀ (one_lt_two : (1 : ℚ) < 2)).mp ((normal.resolve_left apart).trans_lt most)
  calc |rounded x - x| ≤ 2 ^ (Int.log 2 |x| + 1 - 54) := abs_rounded_sub_le most (by omega)
    _ = 2 ^ Int.log 2 |x| * 2 ^ (-53 : ℤ) := by
        rw [← zpow_add₀ two_ne_zero]
        congr 1
        omega
    _ ≤ |x| * 2 ^ (-53 : ℤ) := mul_le_mul_of_nonneg_right least (two_zpow_pos _).le

/-- An integer is a multiple of the last place of a number that is not too large. -/
theorem exists_intCast_div (n : ℤ) (small : |x| < 2 ^ 53) : ∃ m : ℤ, (n : ℚ) / 2 ^ lastPlace x = m := by
  have places : lastPlace x ≤ 0 := by
    rcases eq_or_ne x 0 with rfl | apart
    · decide +kernel
    · exact @lastPlace_le x 53 apart (by exact_mod_cast small) (by decide)
  have scaled := exists_multiple n places
  rwa [zpow_zero, mul_one] at scaled

/-- So rounding does not go past an integer. -/
theorem le_rounded (small : |x| < 2 ^ 53) (least : n ≤ x) : n ≤ rounded x := by
  obtain ⟨m, scaled⟩ := exists_intCast_div n small
  have unit := two_zpow_pos (lastPlace x)
  have grid : m ≤ roundEven (x / 2 ^ lastPlace x) :=
    le_roundEven (by rw [← scaled]; exact div_le_div_of_nonneg_right least unit.le)
  rw [rounded, ← div_le_iff₀ unit, scaled]
  exact_mod_cast grid

theorem rounded_le (small : |x| < 2 ^ 53) (most : x ≤ n) : rounded x ≤ n := by
  obtain ⟨m, scaled⟩ := exists_intCast_div n small
  have unit := two_zpow_pos (lastPlace x)
  have grid : roundEven (x / 2 ^ lastPlace x) ≤ m :=
    roundEven_le (by rw [← scaled]; exact div_le_div_of_nonneg_right most unit.le)
  rw [rounded, ← le_div_iff₀ unit, scaled]
  exact_mod_cast grid

/-- Rounding up a quotient of whole numbers gives the same before and after it. -/
theorem ceil_rounded_div {n d : Nat} (short : n < 2 ^ 53) (divides : 0 < d) (small : d < 2 ^ 53) :
    ⌈rounded (n / d)⌉ = ⌈(n / d : ℚ)⌉ := by
  have positive : (0 : ℚ) < d := Nat.cast_pos.mpr divides
  have nonneg : (0 : ℚ) ≤ n / d := div_nonneg (Nat.cast_nonneg n) positive.le
  have size : |(n / d : ℚ)| < 2 ^ 53 := by
    rw [abs_of_nonneg nonneg]
    have most : (n / d : ℚ) ≤ n := div_le_self (Nat.cast_nonneg n) (Nat.one_le_cast.mpr divides)
    exact most.trans_lt (by exact_mod_cast short)
  refine Int.ceil_eq_iff.mpr ⟨?_, rounded_le size (Int.le_ceil _)⟩
  -- the whole number below is at least one part in `d` away, and the error is less
  have below : ((⌈(n / d : ℚ)⌉ - 1 : ℤ) : ℚ) < n / d := Int.lt_ceil.mp (sub_one_lt _)
  have apart : (⌈(n / d : ℚ)⌉ - 1) * d + 1 ≤ (n : ℤ) := by
    rw [lt_div_iff₀ positive] at below
    exact_mod_cast below
  have gap : ((⌈(n / d : ℚ)⌉ - 1 : ℤ) : ℚ) + 1 / d ≤ n / d := by
    rw [le_div_iff₀ positive, add_mul, one_div_mul_cancel positive.ne']
    exact_mod_cast apart
  have normal : (n / d : ℚ) = 0 ∨ 2 ^ (-1022 : ℤ) ≤ |(n / d : ℚ)| := by
    rcases Nat.eq_zero_or_pos n with rfl | more
    · exact .inl (by rw [Nat.cast_zero, zero_div])
    · refine .inr ?_
      rw [abs_of_nonneg nonneg, le_div_iff₀ positive]
      calc (2 : ℚ) ^ (-1022 : ℤ) * d ≤ 2 ^ (-1022 : ℤ) * 2 ^ 53 := by
            exact mul_le_mul_of_nonneg_left (by exact_mod_cast small.le) (two_zpow_pos _).le
        _ ≤ 1 := by decide +kernel
        _ ≤ n := Nat.one_le_cast.mpr more
  have error : (n / d : ℚ) * 2 ^ (-53 : ℤ) < 1 / d := by
    rw [div_mul_eq_mul_div, div_lt_div_iff_of_pos_right positive]
    calc (n : ℚ) * 2 ^ (-53 : ℤ) < 2 ^ 53 * 2 ^ (-53 : ℤ) := by
          exact mul_lt_mul_of_pos_right (by exact_mod_cast short) (two_zpow_pos _)
      _ = 1 := by decide +kernel
  have near := (abs_le.mp (abs_rounded_sub_le_mul normal)).1
  rw [abs_of_nonneg nonneg] at near
  push_cast at gap ⊢
  linarith

end Binary64

namespace Lua.Number

/-- The number of Lua for a rational. -/
def ofRat (x : ℚ) : Number :=
  let y := Binary64.rounded x
  if 2 ^ 1024 ≤ y then inf else if y ≤ -2 ^ 1024 then negInf else finite y

def sign : Number → ℤ
  | finite q => q.num.sign
  | inf => 1
  | negInf => -1
  | nan => 0

def infinity (sign : ℤ) : Number := if 0 < sign then inf else if sign < 0 then negInf else nan

instance : Neg Number where
  neg
    | finite q => finite (-q)
    | inf => negInf
    | negInf => inf
    | nan => nan

instance : Add Number where
  add
    | finite a, finite b => ofRat (a + b)
    | nan, _ | _, nan | inf, negInf | negInf, inf => nan
    | inf, _ | _, inf => inf
    | negInf, _ | _, negInf => negInf

instance : Sub Number := ⟨fun a b => a + -b⟩

instance : Mul Number where
  mul
    | finite a, finite b => ofRat (a * b)
    | a, b => infinity (a.sign * b.sign)

/-- A quotient. There is only one zero, and it counts as positive. -/
instance : Div Number where
  div
    | finite a, finite b => if b = 0 then infinity (finite a).sign else ofRat (a / b)
    | finite _, inf | finite _, negInf => finite 0
    | a, finite b => infinity (a.sign * if b < 0 then -1 else 1)
    | _, _ => nan

def ceil : Number → Number
  | finite q => finite ⌈q⌉
  | x => x

/-- A conversion to an integer type, towards zero. -/
def truncate : Number → ℤ
  | finite q => if 0 ≤ q then ⌊q⌋ else ⌈q⌉
  | _ => 0

instance : Double Number where
  floor
    | finite q => finite ⌊q⌋
    | x => x
  ofUInt64 x := ofRat x.toNat
  toUInt32 x := .ofInt x.truncate
  toUInt64 x := .ofInt x.truncate
  toInt64 x := .ofInt x.truncate

@[simp]
theorem finite_add_finite (a b : ℚ) : finite a + finite b = ofRat (a + b) := rfl

@[simp]
theorem finite_sub_finite (a b : ℚ) : finite a - finite b = ofRat (a - b) := congrArg ofRat (sub_eq_add_neg a b).symm

@[simp]
theorem finite_mul_finite (a b : ℚ) : finite a * finite b = ofRat (a * b) := rfl

theorem finite_div_finite (a : ℚ) {b : ℚ} (apart : b ≠ 0) : finite a / finite b = ofRat (a / b) := if_neg apart

theorem toUInt32_of_floor {q : ℚ} {n : UInt32} (floor : ⌊q⌋ = n.toNat) : Double.toUInt32 (finite q) = n := by
  have nonneg : 0 ≤ q := Int.floor_nonneg.mp (by omega)
  have whole : (finite q).truncate = n.toNat := by rw [truncate, if_pos nonneg, floor]
  have small := n.toNat_lt
  change UInt32.ofNat ((finite q).truncate % 2 ^ 32).toNat = n
  rw [whole, Int.emod_eq_of_lt (by omega) (by omega), Int.toNat_natCast, UInt32.ofNat_toNat]

theorem ofRat_of_abs_lt {x : ℚ} (small : |x| < 2 ^ 1023) : ofRat x = finite (Binary64.rounded x) := by
  have near := @Binary64.abs_rounded_sub_le x 1023 (by exact_mod_cast small) (by decide)
  have bound : |Binary64.rounded x| < 2 ^ 1024 := by
    calc |Binary64.rounded x| = |x + (Binary64.rounded x - x)| := by rw [add_sub_cancel]
      _ ≤ |x| + |Binary64.rounded x - x| := abs_add_le _ _
      _ < 2 ^ 1023 + 2 ^ 1023 := add_lt_add small (near.trans_lt (by decide +kernel))
      _ = 2 ^ 1024 := by decide +kernel
  obtain ⟨least, most⟩ := abs_lt.mp bound
  rw [ofRat, if_neg (not_le.mpr most), if_neg (not_le.mpr least)]

theorem ofRat_natCast {n : Nat} (short : n < 2 ^ 53) : ofRat n = ofNat n := by
  have small : |(n : ℚ)| < 2 ^ 1023 := by
    rw [Nat.abs_cast]
    exact_mod_cast short.trans (by decide +kernel)
  rw [ofRat_of_abs_lt small, Binary64.rounded_natCast short, ofNat]

theorem ofNat_mul_ofNat {m n : Nat} (short : m * n < 2 ^ 53) : ofNat m * ofNat n = ofNat (m * n) := by
  rw [← ofRat_natCast short, ofNat, ofNat, finite_mul_finite, Nat.cast_mul]

/-- A value as the result of arithmetic: the number is met but for some units of 2^-52. -/
def Near (n : Nat) (v : Number) (q : ℚ) : Prop := ∃ r, v = finite r ∧ |r - q| ≤ q * (n * 2 ^ (-52 : ℤ))

/-- Zero, or far from both ends of the exponents. -/
def Normal (q : ℚ) : Prop := q = 0 ∨ 2 ^ (-1000 : ℤ) ≤ q ∧ q ≤ 2 ^ (1000 : ℤ)

theorem near_ofNat (n : Nat) : Near 0 (ofNat n) n := ⟨n, rfl, by simp⟩

theorem Near.mono {m n : Nat} {v : Number} {q : ℚ} (near : Near m v q) (nonneg : 0 ≤ q) (more : m ≤ n) : Near n v q := by
  obtain ⟨r, rfl, close⟩ := near
  refine ⟨r, rfl, close.trans (mul_le_mul_of_nonneg_left ?_ nonneg)⟩
  exact mul_le_mul_of_nonneg_right (Nat.cast_le.mpr more) (Binary64.two_zpow_pos _).le

theorem Normal.nonneg {q : ℚ} (normal : Normal q) : 0 ≤ q := by
  rcases normal with rfl | ⟨least, -⟩
  · exact le_rfl
  · exact (Binary64.two_zpow_pos _).le.trans least

theorem normal_of_le {q : ℚ} (least : 1 / 10 ^ 40 ≤ q) (most : q ≤ 10 ^ 40) : Normal q :=
  .inr ⟨le_trans (by decide +kernel) least, most.trans (by decide +kernel)⟩

/-- Rounding adds one unit. -/
theorem near_ofRat {n : Nat} {y q : ℚ} (normal : Normal q) (few : n ≤ 2 ^ 10)
    (close : |y - q| ≤ q * ((n + 1 / 4) * 2 ^ (-52 : ℤ))) : Near (n + 1) (ofRat y) q := by
  rcases normal with rfl | ⟨least, most⟩
  · rw [zero_mul, sub_zero, abs_nonpos_iff] at close
    rw [close]
    exact ⟨0, by decide +kernel, by simp⟩
  have positive : 0 < q := (Binary64.two_zpow_pos _).trans_le least
  have count : (n : ℚ) ≤ 2 ^ 10 := by exact_mod_cast few
  have part : q * ((n + 1 / 4) * 2 ^ (-52 : ℤ)) ≤ q * (1 / 2) := by
    refine mul_le_mul_of_nonneg_left ?_ positive.le
    norm_num
    linarith
  obtain ⟨below, above⟩ := abs_le.mp (close.trans part)
  have nonneg : 0 ≤ y := by linarith
  have low : (2 : ℚ) ^ (-1022 : ℤ) ≤ |y| := by
    rw [abs_of_nonneg nonneg]
    have half : (2 : ℚ) ^ (-1022 : ℤ) ≤ 2 ^ (-1000 : ℤ) / 2 := by decide +kernel
    linarith
  have high : |y| < 2 ^ 1023 := by
    calc |y| ≤ q * 2 := by rw [abs_of_nonneg nonneg]; linarith
      _ ≤ 2 ^ (1000 : ℤ) * 2 := mul_le_mul_of_nonneg_right most two_pos.le
      _ < 2 ^ 1023 := by decide +kernel
  refine ⟨_, ofRat_of_abs_lt high, ?_⟩
  have error := Binary64.abs_rounded_sub_le_mul (.inr low)
  rw [abs_of_nonneg nonneg] at error
  calc |Binary64.rounded y - q| ≤ |Binary64.rounded y - y| + |y - q| := abs_sub_le _ _ _
    _ ≤ y * 2 ^ (-53 : ℤ) + q * ((n + 1 / 4) * 2 ^ (-52 : ℤ)) := add_le_add error close
    _ ≤ q * ((n + 1 : Nat) * 2 ^ (-52 : ℤ)) := by
        push_cast
        norm_num
        linarith

section
variable {m n : Nat} {a b : Number} {p q : ℚ}

/-- Products add the units of their factors. -/
theorem Near.mul (left : Near m a p) (right : Near n b q) (first : 0 ≤ p) (second : 0 ≤ q) (normal : Normal (p * q))
    (few : m ≤ 16) (fewer : n ≤ 16) : Near (m + n + 1) (a * b) (p * q) := by
  obtain ⟨x, rfl, near⟩ := left
  obtain ⟨y, rfl, close⟩ := right
  rw [finite_mul_finite]
  refine near_ofRat normal (by omega) ?_
  have both : (m : ℚ) * n ≤ 16 * 16 := by exact_mod_cast Nat.mul_le_mul few fewer
  calc |x * y - p * q| = |(x - p) * (y - q) + (x - p) * q + p * (y - q)| := congrArg abs (by ring)
    _ ≤ |(x - p) * (y - q)| + |(x - p) * q| + |p * (y - q)| := abs_add_three _ _ _
    _ = |x - p| * |y - q| + |x - p| * q + p * |y - q| := by
        rw [abs_mul, abs_mul, abs_mul, abs_of_nonneg first, abs_of_nonneg second]
    _ ≤ p * (m * 2 ^ (-52 : ℤ)) * (q * (n * 2 ^ (-52 : ℤ))) + p * (m * 2 ^ (-52 : ℤ)) * q +
        p * (q * (n * 2 ^ (-52 : ℤ))) := by gcongr
    _ = p * q * ((m * n * 2 ^ (-52 : ℤ) + (m + n)) * 2 ^ (-52 : ℤ)) := by ring
    _ ≤ p * q * (((m + n : Nat) + 1 / 4) * 2 ^ (-52 : ℤ)) := by
        refine mul_le_mul_of_nonneg_left (mul_le_mul_of_nonneg_right ?_ (Binary64.two_zpow_pos _).le) normal.nonneg
        push_cast
        norm_num
        linarith

/-- So do quotients. -/
theorem Near.div (left : Near m a p) (right : Near n b q) (first : 0 ≤ p) (positive : 0 < q) (normal : Normal (p / q))
    (few : m ≤ 16) (fewer : n ≤ 16) : Near (m + n + 1) (a / b) (p / q) := by
  obtain ⟨x, rfl, near⟩ := left
  obtain ⟨y, rfl, close⟩ := right
  have units : (n : ℚ) * (m + n + 1 / 4) ≤ 16 * (16 + 16 + 1 / 4) := by
    have less : (m : ℚ) ≤ 16 := by exact_mod_cast few
    have fewer : (n : ℚ) ≤ 16 := by exact_mod_cast fewer
    exact mul_le_mul fewer (by linarith) (by positivity) (by norm_num)
  have part : (n : ℚ) ≤ 16 := by exact_mod_cast fewer
  have least : q * (1 - n * 2 ^ (-52 : ℤ)) ≤ y := by linarith [(abs_le.mp close).1]
  have divisor : 0 < y := by
    refine lt_of_lt_of_le (mul_pos positive ?_) least
    norm_num
    linarith
  rw [finite_div_finite x divisor.ne']
  refine near_ofRat normal (by omega) ?_
  have error : x / y - p / q = ((x - p) - p / q * (y - q)) / y := by
    have apart := positive.ne'
    have nonzero := divisor.ne'
    field_simp
    ring
  have room : q * (m + n) ≤ (m + n + 1 / 4) * y := by
    calc q * (m + n) ≤ (m + n + 1 / 4) * (q * (1 - n * 2 ^ (-52 : ℤ))) := by
          norm_num
          nlinarith
      _ ≤ (m + n + 1 / 4) * y := mul_le_mul_of_nonneg_left least (by positivity)
  calc |x / y - p / q| = |(x - p) - p / q * (y - q)| / y := by rw [error, abs_div, abs_of_pos divisor]
    _ ≤ (|x - p| + |p / q * (y - q)|) / y := div_le_div_of_nonneg_right (abs_sub _ _) divisor.le
    _ = (|x - p| + p / q * |y - q|) / y := by rw [abs_mul, abs_of_nonneg normal.nonneg]
    _ ≤ (p * (m * 2 ^ (-52 : ℤ)) + p / q * (q * (n * 2 ^ (-52 : ℤ)))) / y := by gcongr
    _ = p / q * (q * (m + n) / y * 2 ^ (-52 : ℤ)) := by
        have apart := positive.ne'
        field_simp
    _ ≤ p / q * (((m + n : Nat) + 1 / 4) * 2 ^ (-52 : ℤ)) := by
        refine mul_le_mul_of_nonneg_left (mul_le_mul_of_nonneg_right ?_ (Binary64.two_zpow_pos _).le) normal.nonneg
        rw [div_le_iff₀ divisor]
        push_cast
        exact room

end

end Lua.Number
