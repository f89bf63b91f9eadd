import Mathlib.Algebra.Field.Rat
import Mathlib.Data.Rat.Cast.CharZero
import Mathlib.Algebra.BigOperators.Group.List.Lemmas
import Mathlib.Tactic.NormNum
import MoonGen.Histogram.Buckets
import MoonGen.Lib.Welford

namespace MoonGen

open List

namespace Histogram

/-- The running values of a histogram are those of the algorithm it is based on. -/
structure Tracks (h : Histogram) (w : Welford ℚ) : Prop where
  count : h.count.toNat = w.count
  mean : h.mean = w.mean
  m2 : h.m2 = w.m2

section
variable {h : Histogram} {w : Welford ℚ}

theorem Tracks.update (tracks : h.Tracks w) (v : Int64) (word : w.count + 1 < 2 ^ 64) :
    (h.update v).2.Tracks (w.update v.toInt) := by
  obtain ⟨count, mean, m2⟩ := tracks
  have next : (h.count + 1).toNat = w.count + 1 := by
    rw [UInt64.toNat_add, count]
    exact Nat.mod_eq_of_lt word
  refine ⟨next, ?_, ?_⟩
  · simp only [Histogram.update, Welford.update, next, mean]
  · simp only [Histogram.update, Welford.update, next, mean, m2]

theorem Tracks.updates (tracks : h.Tracks w) (samples : List Int64) (word : w.count + samples.length < 2 ^ 64) :
    (h.updates samples).Tracks ((samples.map fun v => (v.toInt : ℚ)).foldl Welford.update w) := by
  induction samples generalizing h w with
  | nil => exact tracks
  | cons v samples ih =>
    rw [length_cons] at word
    have rest : (w.update v.toInt).count + samples.length < 2 ^ 64 := by
      change w.count + 1 + samples.length < _
      omega
    exact ih (tracks.update v (by omega)) rest

/-- Updates leave the variance to `finalize`. -/
theorem variance_updates (samples : List Int64) : (h.updates samples).variance = h.variance := by
  induction samples generalizing h with
  | nil => rfl
  | cons v samples ih => exact @ih (h.update v).2

/-- Below `2 ^ 64` updates the values are the average of the samples and their
squared deviations from it. -/
theorem Fresh.moments (fresh : h.Fresh) {samples : List Int64} (word : samples.length < 2 ^ 64) :
    (h.updates samples).mean = Welford.average (samples.map fun v => (v.toInt : ℚ)) ∧
      (h.updates samples).m2 = Welford.deviation (samples.map fun v => (v.toInt : ℚ)) := by
  have start : h.Tracks .empty := ⟨by rw [fresh.count]; rfl, fresh.mean, fresh.m2⟩
  obtain ⟨-, mean, m2⟩ := start.updates samples (by change 0 + samples.length < _; omega)
  rw [Welford.foldl_update] at mean m2
  exact ⟨mean, m2⟩

theorem Fresh.count_updates (fresh : h.Fresh) (samples : List Int64) :
    (h.updates samples).count = .ofNat samples.length := by
  rw [Histogram.count_updates, fresh.count, UInt64.zero_add]

/-- With at least two samples `finalize` divides by one less than their number. -/
theorem Fresh.variance_finalize (fresh : h.Fresh) {samples : List Int64} (two : 2 ≤ samples.length)
    (word : samples.length < 2 ^ 64) :
    (h.updates samples).finalize.variance = (h.updates samples).m2 / (samples.length - 1) := by
  have count : (h.updates samples).count.toNat = samples.length := by
    rw [fresh.count_updates]
    exact UInt64.toNat_ofNat_of_lt' word
  have enough : ¬(h.updates samples).count < 2 := by
    rw [UInt64.lt_iff_toNat_lt, count]
    exact Nat.not_lt.mpr two
  have less : ((h.updates samples).count - 1).toNat = samples.length - 1 := by
    rw [UInt64.toNat_sub_of_le _ _ (by rw [UInt64.le_iff_toNat_le, count]; exact Nat.le_of_succ_le two), count]
    rfl
  rw [finalize, if_neg enough]
  dsimp only
  rw [less, Nat.cast_sub (Nat.le_of_succ_le two), Nat.cast_one]

/-- When the counter has come round to zero, `finalize` sets no variance. -/
theorem Fresh.variance_of_wrap (fresh : h.Fresh) {samples : List Int64} (wrap : samples.length = 2 ^ 64) :
    (h.updates samples).finalize.variance = 0 := by
  have zero : (h.updates samples).count = 0 := by
    rw [fresh.count_updates, wrap]
    rfl
  rw [finalize, zero, if_pos (by decide), variance_updates, fresh.variance]

end

theorem mean_finalize (h : Histogram) : h.finalize.mean = h.mean := by
  unfold finalize
  split <;> rfl

theorem m2_finalize (h : Histogram) : h.finalize.m2 = h.m2 := by
  unfold finalize
  split <;> rfl

end Histogram

open Histogram

/-- For two or more samples, and less than `2 ^ 64` of them, the values after
`finalize` are the mean, the squared deviations from it and the variance, in
whichever order the samples came. -/
theorem histogram_moments {bucketSize : UInt32} (positive : 0 < bucketSize) {samples : List Int64}
    (two : 2 ≤ samples.length) (word : samples.length < 2 ^ 64) :
    ∃ h, create bucketSize = some h ∧ ∀ other : List Int64, other.Perm samples →
      let xs := samples.map fun v => (v.toInt : ℚ)
      let after := (h.updates other).finalize
      after.mean = xs.sum / samples.length ∧
        after.m2 = (xs.map fun x => (x - xs.sum / samples.length) ^ 2).sum ∧
        after.variance = after.m2 / (samples.length - 1) := by
  obtain ⟨h, made, -, fresh⟩ := create_sized positive
  refine ⟨h, made, fun other perm => ?_⟩
  have length := perm.length_eq
  have numbers := perm.map fun v => (v.toInt : ℚ)
  have count : (samples.map fun v => (v.toInt : ℚ)).length = samples.length := length_map _
  obtain ⟨mean, m2⟩ := fresh.moments (length ▸ word)
  have variance := fresh.variance_finalize (length ▸ two) (length ▸ word)
  rw [Welford.average_perm numbers, Welford.average, count] at mean
  rw [Welford.deviation_perm numbers, Welford.deviation, Welford.average, count] at m2
  rw [length] at variance
  exact ⟨(mean_finalize _).trans mean, (m2_finalize _).trans m2, variance.trans (by rw [m2_finalize])⟩

theorem histogram_moments_three : ∃ h, create 10 = some h ∧ (h.updates [1, 2, 6]).finalize.mean = 3 ∧
    (h.updates [6, 1, 2]).finalize.variance = 7 := by
  obtain ⟨h, made, moments⟩ := histogram_moments (by decide : (0 : UInt32) < 10)
    (by decide : 2 ≤ [(1 : Int64), 2, 6].length) (by decide)
  obtain ⟨mean, -, -⟩ := moments [1, 2, 6] (.refl _)
  obtain ⟨-, m2, variance⟩ := moments [6, 1, 2] (by decide)
  refine ⟨h, made, mean.trans ?_, variance.trans ?_⟩
  · decide +kernel
  · rw [m2]
    decide +kernel

/-- Zeros and a one have a positive sum of squared deviations. -/
theorem deviation_zeros_one (n : Nat) :
    Welford.deviation (List.replicate n (0 : ℚ) ++ [(1 : ℚ)]) = (n : ℚ) / (n + 1) := by
  have positive : (n : ℚ) + 1 ≠ 0 := by exact_mod_cast Nat.succ_ne_zero n
  have average : Welford.average (List.replicate n (0 : ℚ) ++ [(1 : ℚ)]) = 1 / ((n : ℚ) + 1) := by
    simp [Welford.average]
  rw [Welford.deviation_eq, average]
  simp only [map_append, map_replicate, map_cons, map_nil, sum_append, sum_replicate,
    sum_singleton, length_append, length_replicate, length_singleton, Nat.cast_add, Nat.cast_one]
  field_simp
  simp

/-- After `2 ^ 64` samples that are not all equal no variance is set. -/
theorem histogram_moments_wrap : ∃ h, create 1 = some h ∧ ∃ samples : List Int64,
    samples = List.replicate (2 ^ 64 - 1) 0 ++ [1] ∧ 2 ≤ samples.length ∧
    (h.updates samples).finalize.variance ≠
      Welford.deviation (samples.map fun v => (v.toInt : ℚ)) / (samples.length - 1) := by
  obtain ⟨h, made, -, fresh⟩ := create_sized (by decide : (0 : UInt32) < 1)
  have length : (List.replicate (2 ^ 64 - 1) (0 : Int64) ++ [1]).length = 2 ^ 64 := by
    rw [length_append, length_replicate, length_singleton, Nat.sub_add_cancel (by decide)]
  have numbers : (List.replicate (2 ^ 64 - 1) (0 : Int64) ++ [1]).map (fun v : Int64 => (v.toInt : ℚ)) =
      List.replicate (2 ^ 64 - 1) (0 : ℚ) ++ [(1 : ℚ)] := by
    rw [map_append, map_replicate]
    rfl
  refine ⟨h, made, _, rfl, by rw [length]; decide, ?_⟩
  rw [fresh.variance_of_wrap length, numbers, deviation_zeros_one, length]
  norm_num

end MoonGen
