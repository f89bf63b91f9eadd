import Mathlib.Algebra.Order.Field.Rat
import Mathlib.Data.List.Induction
import MoonGen.Lib.BitField
import MoonGen.Lib.LuaBit

namespace MoonGen

open List

namespace Ipsec

open LuaBit

def clearBit32 (reg32 idx : Int) : Except String Int :=
  if idx < 0 ∨ idx > 31 then .error "Idx must be in range 0-31"
  else
    let mask := bnot (lshift 0x1 idx)
    .ok (band reg32 mask)

/-- The values of `i` in a loop from one number down to another. -/
def countdown (fromBit toBit : Int) : List Int :=
  (List.range (fromBit - toBit + 1).toNat).map fun (k : Nat) => fromBit - k

def clearBits32 (reg32 fromBit toBit : Int) : Except String Int :=
  (countdown fromBit toBit).foldlM clearBit32 reg32

/-- `set_bits32`, with the text that a number is printed as. -/
def setBits32 (tostring : ℚ → String) (reg32 fromBit toBit value : Int) : Except String Int :=
  let upperLimit : ℚ := 2 ^ (fromBit - toBit + 1) - 1
  if value < 0 ∨ value > upperLimit then .error ("Value must be in range 0-" ++ tostring upperLimit)
  else do
    let tmp ← clearBits32 reg32 fromBit toBit
    return bor tmp (lshift value toBit)

/-- An update of the bits from one down to another, with a value that fits. -/
structure BitsUpdate where
  fromBit : Int
  toBit : Int
  value : Int
  top : fromBit ≤ 31
  order : toBit ≤ fromBit
  bottom : 0 ≤ toBit
  nonneg : 0 ≤ value
  fits : value < 2 ^ (fromBit - toBit + 1).toNat

namespace BitsUpdate

def run (tostring : ℚ → String) (u : BitsUpdate) (reg32 : Int) : Except String Int :=
  setBits32 tostring reg32 u.fromBit u.toBit u.value

def field (u : BitsUpdate) : BitField := ⟨u.toBit.toNat, (u.fromBit - u.toBit + 1).toNat⟩

/-- The word with the value in its field. -/
def put (u : BitsUpdate) (w : Nat) : Nat := u.field.put w u.value.toNat

/-- No bit is in both updates. -/
def Disjoint (u v : BitsUpdate) : Prop := u.fromBit < v.toBit ∨ v.fromBit < u.toBit

/-- All ones. -/
def full : BitsUpdate where
  fromBit := 31
  toBit := 0
  value := 0xffffffff
  top := by decide
  order := by decide
  bottom := by decide
  nonneg := by decide
  fits := by decide

/-- The highest bit is cleared. -/
def highest : BitsUpdate where
  fromBit := 31
  toBit := 31
  value := 0
  top := by decide
  order := by decide
  bottom := by decide
  nonneg := by decide
  fits := by decide

end BitsUpdate

theorem mem_countdown {fromBit toBit i : Int} : i ∈ countdown fromBit toBit ↔ toBit ≤ i ∧ i ≤ fromBit := by
  simp only [countdown, mem_map, mem_range]
  constructor
  · rintro ⟨k, inside, rfl⟩
    omega
  · rintro ⟨low, high⟩
    exact ⟨(fromBit - i).toNat, by omega, by omega⟩

theorem clearBit32_of_valid (r : Int) {idx : Int} (low : 0 ≤ idx) (high : idx ≤ 31) :
    ∃ s, clearBit32 r idx = .ok s ∧
      ∀ i : Nat, (bits s).getLsbD i = if (i : Int) = idx then false else (bits r).getLsbD i := by
  refine ⟨_, if_neg (by omega), fun i => ?_⟩
  rw [bits_band, bits_bnot, bits_lshift_one low high, BitVec.getLsbD_and, BitVec.getLsbD_not, BitVec.getLsbD_twoPow]
  by_cases inside : i < 32
  · by_cases own : (i : Int) = idx
    · have place : idx.toNat = i := by omega
      simp [own, place, inside]
    · have place : idx.toNat ≠ i := by omega
      simp [own, place, inside]
  · rw [BitVec.getLsbD_of_ge _ _ (by omega), Bool.false_and, ite_self]

/-- The loop clears the bits that it comes to. -/
theorem clears_of_valid {idxs : List Int} (valid : ∀ idx ∈ idxs, 0 ≤ idx ∧ idx ≤ 31) (r : Int) :
    ∃ s, idxs.foldlM clearBit32 r = .ok s ∧
      ∀ i : Nat, (bits s).getLsbD i = if (i : Int) ∈ idxs then false else (bits r).getLsbD i := by
  induction idxs generalizing r with
  | nil => exact ⟨r, rfl, fun i => (if_neg not_mem_nil).symm⟩
  | cons idx idxs ih =>
    obtain ⟨low, high⟩ := valid idx mem_cons_self
    obtain ⟨t, first, cleared⟩ := clearBit32_of_valid r low high
    obtain ⟨s, later, all⟩ := ih (fun other member => valid other (mem_cons_of_mem _ member)) t
    refine ⟨s, ?_, fun i => ?_⟩
    · rw [foldlM_cons, first]
      exact later
    · rw [all, cleared]
      by_cases own : (i : Int) = idx
      · rw [if_pos own, ite_self, if_pos (by rw [own]; exact mem_cons_self)]
      · rw [if_neg own]
        exact if_congr (by simp [own]) rfl rfl

namespace BitsUpdate

variable (tostring : ℚ → String) (u : BitsUpdate) (r : Int)

theorem mem_field {i : Nat} :
    u.field.low ≤ i ∧ i < u.field.low + u.field.width ↔ (i : Int) ∈ countdown u.fromBit u.toBit := by
  have order := u.order
  have bottom := u.bottom
  simp only [mem_countdown, field]
  omega

theorem value_lt : u.value.toNat < 2 ^ u.field.width := by
  rw [Int.toNat_lt u.nonneg, Nat.cast_pow, Nat.cast_ofNat]
  exact u.fits

theorem value_le_upperLimit : (u.value : ℚ) ≤ 2 ^ (u.fromBit - u.toBit + 1) - 1 := by
  have order := u.order
  have fits : (u.value : ℚ) + 1 ≤ 2 ^ (u.fromBit - u.toBit + 1).toNat := by exact_mod_cast u.fits
  have exponent : ((u.fromBit - u.toBit + 1).toNat : Int) = u.fromBit - u.toBit + 1 := Int.toNat_of_nonneg (by omega)
  rw [← exponent, zpow_natCast]
  exact le_sub_iff_add_le.mpr fits

/-- The value in its place. -/
theorem getLsbD_shifted {i : Nat} (inside : i < 32) :
    (bits (lshift u.value u.toBit)).getLsbD i =
      if (i : Int) ∈ countdown u.fromBit u.toBit then u.value.toNat.testBit (i - u.field.low) else false := by
  have top := u.top
  have order := u.order
  rw [bits_lshift, Int.emod_eq_of_lt u.bottom (by omega), bits_of_nonneg u.nonneg, BitVec.getLsbD_shiftLeft,
    BitVec.getLsbD_ofNat, ← if_congr u.mem_field rfl rfl]
  have short : i - u.toBit.toNat < 32 := by omega
  by_cases own : u.field.low ≤ i ∧ i < u.field.low + u.field.width
  · have low : ¬i < u.toBit.toNat := Nat.not_lt.mpr own.1
    rw [if_pos own]
    simp [inside, low, short, field]
  · rw [if_neg own]
    by_cases below : i < u.toBit.toNat
    · simp [below]
    · have wide : 2 ^ u.field.width ≤ 2 ^ (i - u.toBit.toNat) := by
        refine Nat.pow_le_pow_right (by decide) ?_
        simp only [field] at own ⊢
        omega
      rw [Nat.testBit_lt_two_pow (u.value_lt.trans_le wide), Bool.and_false, Bool.and_false]

theorem run_eq : u.run tostring r = .ok (signed (u.put (bits r).toNat)) := by
  have top := u.top
  have bottom := u.bottom
  obtain ⟨s, run, cleared⟩ := @clears_of_valid (countdown u.fromBit u.toBit)
    (fun idx member => by rw [mem_countdown] at member; omega) r
  have limit : ¬(u.value < 0 ∨ (u.value : ℚ) > 2 ^ (u.fromBit - u.toBit + 1) - 1) :=
    not_or.mpr ⟨not_lt.mpr u.nonneg, not_lt.mpr u.value_le_upperLimit⟩
  rw [BitsUpdate.run, setBits32, if_neg limit, clearBits32, run]
  refine congrArg (fun w : BitVec 32 => Except.ok w.toInt) (BitVec.eq_of_getLsbD_eq fun i inside => ?_)
  rw [BitVec.getLsbD_or, cleared, u.getLsbD_shifted inside, BitVec.getLsbD_ofNat, put, BitField.testBit_put,
    BitVec.testBit_toNat, decide_eq_true inside, Bool.true_and, if_congr u.mem_field rfl rfl]
  by_cases own : (i : Int) ∈ countdown u.fromBit u.toBit
  · rw [if_pos own, if_pos own, if_pos own, Bool.false_or]
  · rw [if_neg own, if_neg own, if_neg own, Bool.or_false]

variable {u r} {v : BitsUpdate} {w : Nat}

theorem put_lt (word : w < 2 ^ 32) : u.put w < 2 ^ 32 := by
  have top := u.top
  have order := u.order
  have bottom := u.bottom
  exact u.field.put_lt (by simp only [field]; omega) word

theorem field_apart (disjoint : u.Disjoint v) : u.field.Apart v.field := by
  have bounds := And.intro u.bottom u.order
  have bounds' := And.intro v.bottom v.order
  simp only [Disjoint] at disjoint
  simp only [BitField.Apart, field]
  omega

theorem put_comm (disjoint : u.Disjoint v) (w : Nat) : v.put (u.put w) = u.put (v.put w) :=
  u.field.put_comm (field_apart disjoint) _

theorem put_put (same : v.field = u.field) (w : Nat) : v.put (u.put w) = v.put w := by
  rw [put, put, put, same]
  exact u.field.put_put

/-- One update after another. -/
theorem run_run (u v : BitsUpdate) (r : Int) :
    (u.run tostring r >>= v.run tostring) = .ok (signed (v.put (u.put (bits r).toNat))) := by
  rw [run_eq]
  show v.run tostring _ = _
  rw [run_eq, toNat_bits_signed (put_lt (bits r).isLt)]

theorem testBit_put {i : Nat} : (u.put w).testBit i =
    if u.toBit ≤ i ∧ (i : Int) ≤ u.fromBit then u.value.toNat.testBit (i - u.toBit.toNat) else w.testBit i := by
  rw [put, BitField.testBit_put]
  exact if_congr (u.mem_field.trans mem_countdown) rfl rfl

/-- After any updates a bit is that of the last one that has it, or as it was. -/
theorem runs_bits (us : List BitsUpdate) (r : Int) :
    ∃ s, us.foldlM (fun r u => u.run tostring r) r = .ok s ∧
      ∀ i : Nat, (bits s).toNat.testBit i =
        match us.reverse.find? fun u : BitsUpdate => decide (u.toBit ≤ i ∧ (i : Int) ≤ u.fromBit) with
        | some u => u.value.toNat.testBit (i - u.toBit.toNat)
        | none => (bits r).toNat.testBit i := by
  induction us using List.reverseRecOn with
  | nil => exact ⟨r, rfl, fun i => rfl⟩
  | append_singleton us u ih =>
    obtain ⟨s, run, all⟩ := ih
    refine ⟨signed (u.put (bits s).toNat), ?_, fun i => ?_⟩
    · rw [foldlM_append, run]
      show u.run tostring s >>= pure = _
      rw [run_eq]
      rfl
    · rw [toNat_bits_signed (put_lt (bits s).isLt), testBit_put, reverse_append, reverse_singleton,
        singleton_append, find?_cons]
      by_cases own : u.toBit ≤ i ∧ (i : Int) ≤ u.fromBit
      · rw [if_pos own, decide_eq_true own]
      · rw [if_neg own, decide_eq_false own, all]

theorem runs_bits_highest : ∃ s, [full, highest].foldlM (fun r u => u.run (fun _ => "") r) 5 = .ok s ∧
    (bits s).toNat.testBit 31 = false ∧ (bits s).toNat.testBit 30 = true := by
  obtain ⟨s, run, all⟩ := runs_bits (fun _ => "") [full, highest] 5
  exact ⟨s, run, all 31, all 30⟩

end BitsUpdate

/-- The bits of the range are those of the value and the others as they were, updates of ranges
without a common bit can be exchanged, and a second update of a range replaces the first. -/
theorem setBits32_replaces (tostring : ℚ → String) (r : Int) (u : BitsUpdate) :
    (∃ s, setBits32 tostring r u.fromBit u.toBit u.value = .ok s ∧
        ∀ i : Nat, i < 32 → (s % 2 ^ 32).toNat.testBit i =
          if u.toBit ≤ i ∧ (i : Int) ≤ u.fromBit then u.value.toNat.testBit (i - u.toBit.toNat)
          else (r % 2 ^ 32).toNat.testBit i) ∧
      (∀ v : BitsUpdate, u.Disjoint v →
        (u.run tostring r >>= v.run tostring) = (v.run tostring r >>= u.run tostring)) ∧
      ∀ v : BitsUpdate, v.fromBit = u.fromBit → v.toBit = u.toBit →
        (u.run tostring r >>= v.run tostring) = v.run tostring r := by
  refine ⟨⟨_, u.run_eq tostring r, fun i _ => ?_⟩, fun v disjoint => ?_, fun v sameFrom sameTo => ?_⟩
  · rw [← toNat_bits, ← toNat_bits, toNat_bits_signed (BitsUpdate.put_lt (bits r).isLt), BitsUpdate.testBit_put]
  · rw [BitsUpdate.run_run, BitsUpdate.run_run, BitsUpdate.put_comm disjoint]
  · have same : v.field = u.field := by rw [BitsUpdate.field, BitsUpdate.field, sameFrom, sameTo]
    rw [BitsUpdate.run_run, BitsUpdate.run_eq, BitsUpdate.put_put same]

theorem setBits32_replaces_full :
    (∃ s, setBits32 (fun _ => "") 5 31 0 0xffffffff = .ok s ∧ (s % 2 ^ 32).toNat.testBit 31 = true) ∧
      ∃ s, setBits32 (fun _ => "") 5 31 31 0 = .ok s ∧ (s % 2 ^ 32).toNat.testBit 0 = true := by
  obtain ⟨⟨s, run, all⟩, -, -⟩ := setBits32_replaces (fun _ => "") 5 .full
  obtain ⟨⟨t, run', all'⟩, -, -⟩ := setBits32_replaces (fun _ => "") 5 .highest
  exact ⟨⟨s, run, all 31 (by decide)⟩, t, run', all' 0 (by decide)⟩

end Ipsec

end MoonGen
