import Mathlib.Data.Rat.Floor
import MoonGen.Histogram.Cells

namespace MoonGen

variable {α : Type*} {p : Nat}

/-- The place of the percentile, counted from one. -/
def rank (n p : Nat) : Nat := ⌈(n : ℚ) * p / 100⌉₊

theorem rank_pos {n : Nat} (nonempty : 0 < n) (low : 1 ≤ p) : 0 < rank n p := by
  have : 0 < (n : ℚ) * p := by exact_mod_cast Nat.mul_pos nonempty low
  exact Nat.ceil_pos.mpr (div_pos this (by norm_num))

theorem lt_rank_iff {n i : Nat} : i < rank n p ↔ 100 * i < p * n := by
  rw [rank, Nat.lt_ceil, lt_div_iff₀ (by norm_num), mul_comm (i : ℚ), mul_comm (n : ℚ)]
  exact_mod_cast Iff.rfl

theorem rank_lt_iff {n i : Nat} : rank n p < i ↔ p * n + 100 ≤ 100 * i := by
  have before := @lt_rank_iff p n (i - 1)
  omega

theorem rank_le {n : Nat} (high : p ≤ 100) : rank n p ≤ n := by
  rw [← not_lt, lt_rank_iff, not_lt, Nat.mul_comm p]
  exact Nat.mul_comm n 100 ▸ Nat.mul_le_mul_left n high

namespace LuaHistogram

/-- The loop over one cell: the value it returns, or the count it goes on with. -/
def percentileCell (target : ℚ) (k : α) : Nat → Nat → α ⊕ Nat
  | 0, idx => .inr idx
  | v + 1, idx => if (idx : ℚ) ≥ target then .inl k else percentileCell target k v (idx + 1)

/-- The loop over all cells, which may end without a value. -/
def percentileCells (target : ℚ) : List (α × Nat) → Nat → Option α
  | [], _ => none
  | p :: cells, idx =>
    match percentileCell target p.1 p.2 idx with
    | .inl k => some k
    | .inr idx => percentileCells target cells idx

theorem percentileCells_cons_succ (target : ℚ) (k : α) (v : Nat) (cells : List (α × Nat)) (idx : Nat) :
    percentileCells target ((k, v + 1) :: cells) idx =
      if (idx : ℚ) ≥ target then some k else percentileCells target ((k, v) :: cells) (idx + 1) := by
  rw [percentileCells, percentileCell, percentileCells]
  by_cases reached : (idx : ℚ) ≥ target
  · rw [if_pos reached, if_pos reached]
  · rw [if_neg reached, if_neg reached]

/-- The walk over the cells is an index into the samples they stand for. -/
theorem percentileCells_eq (target : ℚ) (cells : List (α × Nat)) (idx : Nat) :
    percentileCells target cells idx = (expand cells)[⌈target⌉₊ - idx]? := by
  induction cells generalizing idx with
  | nil => rfl
  | cons p cells ih =>
    obtain ⟨k, v⟩ := p
    induction v generalizing idx with
    | zero => exact ih idx
    | succ v step =>
      rw [percentileCells_cons_succ, expand_cons, List.replicate_succ, List.cons_append]
      split
      · rename_i reached
        have first : ⌈target⌉₊ - idx = 0 := Nat.sub_eq_zero_of_le (Nat.ceil_le.mpr reached)
        rw [first]
        rfl
      · rename_i notYet
        have later : ⌈target⌉₊ - idx = ⌈target⌉₊ - (idx + 1) + 1 := by
          have := Nat.lt_ceil.mpr (not_le.mp notYet)
          omega
        rw [later, List.getElem?_cons_succ, ← expand_cons]
        exact step (idx + 1)

variable [LinearOrder α]

/-- `percentile`. -/
def percentile (h : LuaHistogram α) (order : List (α × Nat)) (percentile : ℚ) : Except String (Option α) :=
  let h := h.refresh order
  if percentile > 100 ∨ percentile < 0 then .error "invalid argument"
  else .ok (percentileCells ((h.numSamples : ℚ) * percentile / 100) h.sortedHisto 0)

variable {h : LuaHistogram α} {samples : List α} {order : List (α × Nat)}

theorem Filled.percentile (filled : Filled h samples) (perm : order.Perm h.histo.entries) {p : ℚ} (low : 0 ≤ p)
    (high : p ≤ 100) :
    h.percentile order p = .ok (orderStat samples ⌈(samples.length : ℚ) * p / 100⌉₊) := by
  obtain ⟨all, sorted⟩ := filled.expand_sortedHisto perm
  have valid : ¬(p > 100 ∨ p < 0) := not_or.mpr ⟨not_lt.mpr high, not_lt.mpr low⟩
  rw [LuaHistogram.percentile, if_neg valid, (filled.calculated perm).numSamples, percentileCells_eq,
    getElem?_expand all sorted]
  rfl

theorem Filled.percentile_nat (filled : Filled h samples) (perm : order.Perm h.histo.entries) (high : p ≤ 100) :
    h.percentile order p = .ok (orderStat samples (rank samples.length p)) :=
  filled.percentile perm (Nat.cast_nonneg p) (by exact_mod_cast high)

end LuaHistogram

variable [LinearOrder α]

/-- `percentile` of the statistics. A place outside the list gives no value. -/
def statsPercentile (data : List α) (p : ℚ) : Option α :=
  let sortedData := data.mergeSort fun a b => decide (a ≤ b)
  let place := ⌈(data.length : ℚ) * p / 100⌉
  if place < 1 then none else sortedData[(place - 1).toNat]?

/-- The smallest sample that has at least this percentage of the samples up to it. -/
def IsNearestRank (samples : List α) (p : Nat) (x : α) : Prop :=
  IsLeast {y | y ∈ samples ∧ (p : ℚ) * samples.length / 100 ≤ countUpto samples y} x

section Rank

variable {samples : List α}

theorem isNearestRank_of_orderStat {x : α} (positive : 0 < rank samples.length p)
    (found : orderStat samples (rank samples.length p - 1) = some x) : IsNearestRank samples p x := by
  have least := isLeast_of_orderStat positive found
  have enough (y : α) :
      rank samples.length p ≤ countUpto samples y ↔ (p : ℚ) * samples.length / 100 ≤ countUpto samples y := by
    rw [rank, Nat.ceil_le, mul_comm (p : ℚ)]
  simp only [enough] at least
  exact least

theorem statsPercentile_eq (positive : 0 < rank samples.length p) :
    statsPercentile samples p = orderStat samples (rank samples.length p - 1) := by
  have place : ⌈(samples.length : ℚ) * p / 100⌉ = (rank samples.length p : Int) :=
    (Int.natCast_ceil_eq_ceil (by positivity)).symm
  rw [statsPercentile, place, if_neg (by omega), orderStat]
  congr 1
  omega

end Rank

open LuaHistogram

/-- The percentile of the statistics is always the nearest rank. The one of a
histogram is too exactly when the sample of that rank is counted once more behind it. -/
theorem percentile_iff {h : LuaHistogram α} {samples : List α} {order : List (α × Nat)} (filled : Filled h samples)
    (perm : order.Perm h.histo.entries) (nonempty : samples ≠ []) (low : 1 ≤ p) (high : p ≤ 100) :
    (∃ x, IsNearestRank samples p x ∧ statsPercentile samples p = some x) ∧
      ((∃ x, IsNearestRank samples p x ∧ h.percentile order p = .ok (some x) ∧ statsPercentile samples p = some x) ↔
        ∃ x ∈ samples, 100 * countBelow samples x < p * samples.length ∧
          p * samples.length + 100 ≤ 100 * countUpto samples x) := by
  have counted := List.length_pos_of_ne_nil nonempty
  have positive := rank_pos counted low
  have inside := @rank_le p samples.length high
  obtain ⟨x, found⟩ := @exists_orderStat _ _ samples (rank samples.length p - 1) (by omega)
  have right := isNearestRank_of_orderStat positive found
  rw [filled.percentile_nat perm high, statsPercentile_eq positive]
  refine ⟨⟨x, right, found⟩, fun ⟨y, _, next, this⟩ => ?_, fun ⟨y, _, before, behind⟩ => ?_⟩
  · obtain ⟨low, -⟩ := orderStat_eq_some_iff.mp this
    obtain ⟨-, high⟩ := orderStat_eq_some_iff.mp (Except.ok.inj next)
    exact ⟨y, orderStat_mem this, lt_rank_iff.mp (by omega), rank_lt_iff.mp high⟩
  · have low := lt_rank_iff.mpr before
    have high := rank_lt_iff.mpr behind
    have this : orderStat samples (rank samples.length p - 1) = y := orderStat_eq_some_iff.mpr ⟨by omega, by omega⟩
    have next : orderStat samples (rank samples.length p) = y := orderStat_eq_some_iff.mpr ⟨by omega, high⟩
    exact ⟨y, isNearestRank_of_orderStat positive this, congrArg Except.ok next, this⟩

theorem percentile_iff_third :
    ∃ x, IsNearestRank [1, 1, 2] 33 x ∧
      (((create.update (some 1)).update (some 1)).update (some 2)).percentile [(1, 2), (2, 1)] 33 = .ok (some x) ∧
      statsPercentile [1, 1, 2] 33 = some x := by
  have filled := ((Filled.create.update 1).update 1).update 2
  exact (percentile_iff filled (.refl _) (by decide) (by decide) (by decide)).2.mpr ⟨1, by decide⟩

/-- The median of one and two is one, and the histogram returns two. -/
theorem percentile_past_median :
    Filled ((create.update (some 1)).update (some 2)) [1, 2] ∧
      IsNearestRank [1, 2] 50 1 ∧ statsPercentile [1, 2] 50 = some 1 ∧
      ((create.update (some 1)).update (some 2)).percentile [(1, 1), (2, 1)] 50 = .ok (some 2) := by
  have filled := ((Filled.create.update 1).update 2 : Filled _ [1, 2])
  have half : rank 2 50 = 1 := by decide +kernel
  have this : orderStat [1, 2] (rank 2 50 - 1) = some 1 := orderStat_eq_some_iff.mpr (by rw [half]; decide)
  have next : orderStat [1, 2] (rank 2 50) = some 2 := orderStat_eq_some_iff.mpr (by rw [half]; decide)
  have positive : 0 < rank 2 50 := by rw [half]; decide
  have stats := @statsPercentile_eq _ 50 _ [1, 2] positive
  have walk := filled.percentile_nat (.refl [(1, 1), (2, 1)]) (by decide : 50 ≤ 100)
  refine ⟨filled, isNearestRank_of_orderStat positive this, ?_, ?_⟩
  · exact_mod_cast stats.trans this
  · exact_mod_cast walk.trans (congrArg Except.ok next)

end MoonGen
