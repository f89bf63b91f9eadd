import Mathlib.Data.Rat.Defs
import MoonGen.Lib.OrderedMap
import MoonGen.Lib.Rounding

namespace MoonGen

/-- `Histogram`, with exact numbers for the `double` ones. -/
structure Histogram where
  count : UInt64
  m2 : ℚ
  mean : ℚ
  variance : ℚ
  bucketSize : Int64
  bucketHalf : Int64
  storage : OrderedMap Int64 UInt32
  deriving DecidableEq

namespace Histogram

/-- The constructor, which ends the program on an invalid bucket size. -/
def create (bucketSize : UInt32) : Option Histogram :=
  if bucketSize ≤ 0 then none
  else
    let size := bucketSize.toUInt64.toInt64
    some { count := 0, m2 := 0, mean := 0, variance := 0, bucketSize := size, bucketHalf := size / 2, storage := .empty }

/-- The bucket to put a value in. -/
def bucket (h : Histogram) (newVal : Int64) : Int64 :=
  let newVal :=
    if newVal > 0 then newVal + h.bucketHalf
    else if newVal < 0 then newVal - h.bucketHalf
    else newVal
  newVal / h.bucketSize * h.bucketSize

/-- `++storage[key]`, which starts from zero at a new key. -/
def increment (h : Histogram) (key : Int64) : OrderedMap Int64 UInt32 := h.storage.alter key fun n => n.getD 0 + 1

/-- `update`, which returns whether the value is not negative. -/
def update (h : Histogram) (newVal : Int64) : Bool × Histogram :=
  let ret := if newVal < 0 then false else true
  let count := h.count + 1
  let delta := newVal.toInt - h.mean
  let mean := h.mean + delta / count.toNat
  let delta2 := newVal.toInt - mean
  (ret, { h with count, mean, m2 := h.m2 + delta * delta2, storage := h.increment (h.bucket newVal) })

def updates (h : Histogram) (samples : List Int64) : Histogram := samples.foldl (fun h v => (h.update v).2) h

/-- `finalize`. With fewer than two values it only reports an error. -/
def finalize (h : Histogram) : Histogram :=
  if h.count < 2 then h else { h with variance := h.m2 / (h.count - 1).toNat }

def getCount (h : Histogram) : UInt64 := h.count

/-- How often a bucket was counted. -/
def countAt (h : Histogram) (key : Int64) : Nat := ((h.storage.get? key).getD 0).toNat

/-- The counts of all buckets together. -/
def total (h : Histogram) : Nat := (h.storage.entries.map fun e => e.2.toNat).sum

/-- The two bucket fields belong to a bucket size that the constructor accepts. -/
structure Sized (h : Histogram) (b : Int) : Prop where
  positive : 0 < b
  small : b < 2 ^ 32
  size : h.bucketSize.toInt = b
  half : h.bucketHalf.toInt = b / 2

/-- Nothing is counted yet. -/
structure Fresh (h : Histogram) : Prop where
  count : h.count = 0
  m2 : h.m2 = 0
  mean : h.mean = 0
  variance : h.variance = 0
  storage : h.storage = .empty

theorem create_sized {bucketSize : UInt32} (positive : 0 < bucketSize) :
    ∃ h, create bucketSize = some h ∧ h.Sized bucketSize.toNat ∧ h.Fresh := by
  have above : 0 < bucketSize.toNat := positive
  have below := bucketSize.toNat_lt
  have size : bucketSize.toUInt64.toInt64.toInt = bucketSize.toNat := by
    change (bucketSize.toUInt64.toBitVec).toInt = _
    rw [BitVec.toInt_eq_toNat_of_lt]
    · change ((bucketSize.toUInt64.toNat : Nat) : Int) = _
      rw [UInt32.toNat_toUInt64]
    · change 2 * bucketSize.toUInt64.toNat < _
      rw [UInt32.toNat_toUInt64]
      omega
  refine ⟨_, if_neg (UInt32.not_le.mpr positive), ⟨by omega, by omega, size, ?_⟩, rfl, rfl, rfl, rfl, rfl⟩
  rw [Int64.toInt_div_of_ne_right _ _ (by decide), size, Int.tdiv_eq_ediv_of_nonneg (by omega)]
  rfl

section
variable {h : Histogram} {b : Int} (sized : h.Sized b)
include sized

/-- In the range of the values nothing wraps. -/
theorem Sized.toInt_bucket {v : Int64} (range : v.toInt.natAbs < 2 ^ 62) : (h.bucket v).toInt = roundTo b v.toInt := by
  obtain ⟨positive, small, size, half⟩ := sized
  have near := natAbs_sub_roundTo_le positive v.toInt
  have shifted : (if v > 0 then v + h.bucketHalf else if v < 0 then v - h.bucketHalf else v).toInt =
      if 0 < v.toInt then v.toInt + b / 2 else if v.toInt < 0 then v.toInt - b / 2 else v.toInt := by
    simp only [gt_iff_lt, Int64.lt_iff_toInt_lt, Int64.toInt_zero]
    split
    · rw [Int64.toInt_add, half, Int.bmod_eq_of_le (by omega) (by omega)]
    · split
      · rw [Int64.toInt_sub, half, Int.bmod_eq_of_le (by omega) (by omega)]
      · rfl
  have other : h.bucketSize ≠ -1 := by
    intro minus
    rw [minus] at size
    have : (-1 : Int64).toInt = -1 := by decide
    omega
  rw [bucket, Int64.toInt_mul, Int64.toInt_div_of_ne_right _ _ other, shifted, size]
  exact Int.bmod_eq_of_le (by change _ ≤ roundTo b v.toInt; omega) (by change roundTo b v.toInt < _; omega)

theorem Sized.update (v : Int64) : (h.update v).2.Sized b := ⟨sized.positive, sized.small, sized.size, sized.half⟩

theorem Sized.bucket_neg {v : Int64} (range : v.toInt.natAbs < 2 ^ 62) : h.bucket (-v) = -h.bucket v := by
  have near := natAbs_sub_roundTo_le sized.positive v.toInt
  have small := sized.small
  have mirrored : (-v).toInt = -v.toInt := by
    rw [Int64.toInt_neg]
    exact Int.bmod_eq_of_le (by omega) (by omega)
  have left := sized.toInt_bucket (v := -v) (by omega)
  have right := sized.toInt_bucket range
  rw [← Int64.toInt_inj, Int64.toInt_neg, left, right, mirrored, roundTo_neg]
  exact (Int.bmod_eq_of_le (by omega) (by omega)).symm

theorem Sized.bucket_mono {u v : Int64} (left : u.toInt.natAbs < 2 ^ 62) (right : v.toInt.natAbs < 2 ^ 62)
    (order : u ≤ v) : h.bucket u ≤ h.bucket v := by
  rw [Int64.le_iff_toInt_le] at order ⊢
  rw [sized.toInt_bucket left, sized.toInt_bucket right]
  exact roundTo_mono sized.positive order

end

section
variable {h : Histogram}

theorem countAt_le_total (h : Histogram) (key : Int64) : h.countAt key ≤ h.total := by
  have part := h.storage.weight_le_sum key UInt32.toNat
  unfold countAt total
  cases found : h.storage.get? key with
  | none => exact Nat.zero_le _
  | some n =>
    rw [found] at part
    exact part

/-- As long as the counts stay below `2 ^ 32`, one of them goes up by one. -/
theorem toNat_increment {n : Option UInt32} (small : (n.getD 0).toNat + 1 < 2 ^ 32) :
    (n.getD 0 + 1).toNat = (n.getD 0).toNat + 1 := by
  rw [UInt32.toNat_add]
  exact Nat.mod_eq_of_lt small

theorem total_update (v : Int64) (small : h.total + 1 < 2 ^ 32) : (h.update v).2.total = h.total + 1 := by
  have change := h.storage.sum_alter (h.bucket v) (fun n => n.getD 0 + 1) UInt32.toNat
  have part := h.countAt_le_total (h.bucket v)
  have counted : ((h.storage.get? (h.bucket v)).map UInt32.toNat).getD 0 = h.countAt (h.bucket v) := by
    unfold countAt
    cases h.storage.get? (h.bucket v) <;> rfl
  rw [toNat_increment (by change h.countAt _ + 1 < _; omega), counted] at change
  change (h.update v).2.total + _ = h.total + (h.countAt _ + 1) at change
  omega

theorem countAt_update (v key : Int64) (small : h.total + 1 < 2 ^ 32) :
    (h.update v).2.countAt key = h.countAt key + if h.bucket v = key then 1 else 0 := by
  have part := h.countAt_le_total (h.bucket v)
  have found : (h.update v).2.storage.get? key = if key = h.bucket v then some _ else h.storage.get? key :=
    h.storage.get?_alter (h.bucket v) _ key
  rw [countAt, found]
  by_cases same : h.bucket v = key
  · subst same
    rw [if_pos rfl, if_pos rfl, Option.getD_some, toNat_increment (by change h.countAt _ + 1 < _; omega)]
    rfl
  · rw [if_neg (Ne.symm same), if_neg same]
    rfl

/-- Every update adds one to a bucket. -/
theorem updates_counts (samples : List Int64) (small : h.total + samples.length < 2 ^ 32) :
    (h.updates samples).total = h.total + samples.length ∧
      ∀ key, (h.updates samples).countAt key = h.countAt key + samples.countP fun v => h.bucket v = key := by
  induction samples generalizing h with
  | nil => exact ⟨rfl, fun key => rfl⟩
  | cons v samples ih =>
    rw [List.length_cons] at small
    have first := @total_update h v (by omega)
    obtain ⟨total, counts⟩ := @ih (h.update v).2 (by omega)
    refine ⟨?_, fun key => ?_⟩
    · rw [List.length_cons, updates, List.foldl_cons]
      change ((h.update v).2.updates samples).total = _
      omega
    · have here := @countAt_update h v key (by omega)
      have rest := counts key
      have same : ∀ w, (h.update v).2.bucket w = h.bucket w := fun _ => rfl
      simp only [same] at rest
      rw [updates, List.foldl_cons, List.countP_cons]
      change ((h.update v).2.updates samples).countAt key = _
      simp only [decide_eq_true_eq]
      omega

/-- The counter of the updates wraps at `2 ^ 64`. -/
theorem count_updates (samples : List Int64) : (h.updates samples).count = h.count + .ofNat samples.length := by
  induction samples generalizing h with
  | nil => exact (UInt64.add_zero _).symm
  | cons v samples ih =>
    have rest := @ih (h.update v).2
    rw [updates, List.foldl_cons, List.length_cons]
    change ((h.update v).2.updates samples).count = _
    rw [rest, UInt64.ofNat_add, UInt64.add_comm (.ofNat samples.length), ← UInt64.add_assoc]
    rfl

end

end Histogram

open Histogram

/-- A value is counted under the multiple of the bucket size next to it, larger
values under no smaller one and opposite values under opposite ones, and the
buckets hold as many counts as there were updates. -/
theorem histogram_buckets {bucketSize : UInt32} (positive : 0 < bucketSize) :
    ∃ h, create bucketSize = some h ∧
      (∀ v : Int64, v.toInt.natAbs < 2 ^ 62 → (bucketSize.toNat : Int) ∣ (h.bucket v).toInt ∧
        2 * (v.toInt - (h.bucket v).toInt).natAbs ≤ bucketSize.toNat ∧ h.bucket (-v) = -h.bucket v) ∧
      (∀ u v : Int64, u.toInt.natAbs < 2 ^ 62 → v.toInt.natAbs < 2 ^ 62 → u ≤ v → h.bucket u ≤ h.bucket v) ∧
      ∀ samples : List Int64, samples.length < 2 ^ 32 →
        (h.updates samples).total = samples.length ∧ (h.updates samples).getCount.toNat = samples.length ∧
          ∀ key, (h.updates samples).countAt key = samples.countP fun v => h.bucket v = key := by
  obtain ⟨h, made, sized, fresh⟩ := create_sized positive
  have start : h.total = 0 ∧ ∀ key, h.countAt key = 0 := by
    constructor
    · rw [total, fresh.storage]
      rfl
    · intro key
      rw [countAt, fresh.storage]
      rfl
  refine ⟨h, made, fun v range => ?_, fun u v => sized.bucket_mono, fun samples few => ?_⟩
  · have near := natAbs_sub_roundTo_le sized.positive v.toInt
    refine ⟨?_, ?_, sized.bucket_neg range⟩
    · rw [sized.toInt_bucket range]
      exact dvd_roundTo _
    · rw [sized.toInt_bucket range]
      omega
  · obtain ⟨sum, counts⟩ := updates_counts samples (by rw [start.1]; omega)
    refine ⟨by omega, ?_, fun key => ?_⟩
    · rw [getCount, count_updates, fresh.count, UInt64.zero_add]
      exact UInt64.toNat_ofNat_of_lt' (few.trans (by decide))
    · rw [counts key, start.2, Nat.zero_add]

theorem histogram_buckets_four : ∃ h, create 4 = some h ∧ h.bucket (-6) = -h.bucket 6 ∧
    (h.updates [6, 7, -6]).total = 3 := by
  obtain ⟨h, made, nearest, -, counts⟩ := histogram_buckets (by decide : (0 : UInt32) < 4)
  exact ⟨h, made, (nearest 6 (by decide)).2.2, (counts [6, 7, -6] (by decide)).1⟩

end MoonGen
