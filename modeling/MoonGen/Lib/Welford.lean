import Mathlib.Algebra.CharZero.Defs
import Mathlib.Algebra.BigOperators.Group.List.Basic
import Mathlib.Data.List.Induction
import Mathlib.Tactic.FieldSimp
import Mathlib.Tactic.LinearCombination
import Mathlib.Tactic.Ring

/-- The number of samples so far, their mean, and their squared deviations from it. -/
@[ext] structure Welford (K : Type*) where
  count : Nat
  mean : K
  m2 : K

namespace Welford

open List

variable {K : Type*} [Field K]

def empty : Welford K := ⟨0, 0, 0⟩

def update (w : Welford K) (x : K) : Welford K :=
  let count := w.count + 1
  let delta := x - w.mean
  let mean := w.mean + delta / count
  let delta2 := x - mean
  ⟨count, mean, w.m2 + delta * delta2⟩

def average (xs : List K) : K := xs.sum / xs.length

def deviation (xs : List K) : K := (xs.map fun x => (x - average xs) ^ 2).sum

theorem average_perm {xs ys : List K} (perm : xs.Perm ys) : average xs = average ys := by
  rw [average, average, perm.sum_eq, perm.length_eq]

theorem deviation_perm {xs ys : List K} (perm : xs.Perm ys) : deviation xs = deviation ys := by
  rw [deviation, deviation, average_perm perm, (perm.map _).sum_eq]

theorem sum_sq_sub (xs : List K) (c : K) :
    (xs.map fun x => (x - c) ^ 2).sum = (xs.map fun x => x ^ 2).sum - 2 * c * xs.sum + xs.length * c ^ 2 := by
  induction xs with
  | nil => simp
  | cons x xs ih =>
    simp only [map_cons, sum_cons, length_cons, ih, Nat.cast_add, Nat.cast_one]
    ring

variable [CharZero K]

theorem length_mul_average (xs : List K) : xs.length * average xs = xs.sum := by
  cases xs with
  | nil => simp
  | cons x xs =>
    have positive : ((x :: xs).length : K) ≠ 0 := Nat.cast_ne_zero.mpr (by simp)
    rw [average, mul_div_cancel₀ _ positive]

theorem deviation_eq (xs : List K) : deviation xs = (xs.map fun x => x ^ 2).sum - xs.length * average xs ^ 2 := by
  have total := length_mul_average xs
  rw [deviation, sum_sq_sub, ← total]
  ring

/-- One update after another computes the average and the squared deviations. -/
theorem foldl_update (xs : List K) : xs.foldl update empty = ⟨xs.length, average xs, deviation xs⟩ := by
  induction xs using List.reverseRecOn with
  | nil => simp [empty, average, deviation]
  | append_singleton xs x ih =>
    have positive : ((xs.length : K) + 1) ≠ 0 := by exact_mod_cast Nat.succ_ne_zero xs.length
    have before := length_mul_average xs
    have after := length_mul_average (xs ++ [x])
    rw [length_append, length_singleton, sum_append, sum_singleton, ← before, Nat.cast_add, Nat.cast_one] at after
    have mean : average xs + (x - average xs) / ((xs.length + 1 : Nat) : K) = average (xs ++ [x]) := by
      rw [Nat.cast_add, Nat.cast_one]
      field_simp
      linear_combination -after
    rw [foldl_append, ih, foldl_cons, foldl_nil]
    ext
    · simp [update]
    · exact mean
    · simp only [update, mean]
      rw [deviation_eq, deviation_eq, map_append, sum_append, length_append, length_singleton]
      simp only [map_cons, map_nil, sum_singleton, Nat.cast_add, Nat.cast_one]
      linear_combination (average xs + average (xs ++ [x])) * after

end Welford
