import Mathlib.Algebra.BigOperators.Group.List.Basic
import Mathlib.Data.Nat.ModEq

namespace OnesComplement

open List

/-- The sum of two 16-bit words, with the carry added at the low end. -/
def add (a b : Nat) : Nat := if a + b < 2 ^ 16 then a + b else a + b - 65535

def sum (words : List Nat) : Nat := words.foldl add 0

variable {a b : Nat} {words : List Nat}

theorem add_lt (left : a < 2 ^ 16) (right : b < 2 ^ 16) : add a b < 2 ^ 16 := by
  unfold add
  split <;> omega

theorem add_zero (word : a < 2 ^ 16) : add a 0 = a := if_pos word

theorem add_modEq (a b : Nat) : add a b ≡ a + b [MOD 65535] := by
  unfold add
  split
  · rfl
  · refine (Nat.modEq_iff_dvd' (Nat.sub_le ..)).mpr ⟨1, ?_⟩
    omega

theorem add_eq_zero_iff : add a b = 0 ↔ a + b = 0 := by
  unfold add
  split <;> omega

theorem foldl_modEq (a : Nat) (words : List Nat) : words.foldl add a ≡ a + words.sum [MOD 65535] := by
  induction words generalizing a with
  | nil => rfl
  | cons b words ih =>
    rw [foldl_cons, sum_cons, ← Nat.add_assoc]
    exact (ih (add a b)).trans ((add_modEq a b).add_right _)

theorem foldl_lt (start : a < 2 ^ 16) (small : ∀ b ∈ words, b < 2 ^ 16) : words.foldl add a < 2 ^ 16 := by
  induction words generalizing a with
  | nil => exact start
  | cons b words ih =>
    rw [forall_mem_cons] at small
    exact ih (add_lt start small.1) small.2

theorem foldl_eq_zero_iff : words.foldl add a = 0 ↔ a + words.sum = 0 := by
  induction words generalizing a with
  | nil => rfl
  | cons b words ih =>
    have first := add_eq_zero_iff (a := a) (b := b)
    rw [foldl_cons, ih, sum_cons]
    omega

/-- A sum that is computed otherwise but agrees on words. -/
theorem foldl_eq {f : Nat → Nat → Nat} (agree : ∀ a b, a < 2 ^ 16 → b < 2 ^ 16 → f a b = add a b) (start : a < 2 ^ 16)
    (small : ∀ b ∈ words, b < 2 ^ 16) : words.foldl f a = words.foldl add a := by
  induction words generalizing a with
  | nil => rfl
  | cons b words ih =>
    rw [forall_mem_cons] at small
    rw [foldl_cons, foldl_cons, agree a b start small.1]
    exact ih (add_lt start small.1) small.2

theorem sum_modEq (words : List Nat) : sum words ≡ words.sum [MOD 65535] := by
  have total := foldl_modEq 0 words
  rwa [Nat.zero_add] at total

theorem sum_lt (small : ∀ b ∈ words, b < 2 ^ 16) : sum words < 2 ^ 16 := foldl_lt (by decide) small

theorem sum_eq_zero_iff : sum words = 0 ↔ words.sum = 0 := by
  rw [sum, foldl_eq_zero_iff, Nat.zero_add]

/-- All ones is the sum of words that are not all zero and add up to a multiple. -/
theorem sum_eq_ones_iff (small : ∀ b ∈ words, b < 2 ^ 16) : sum words = 65535 ↔ 65535 ∣ words.sum ∧ words.sum ≠ 0 := by
  have total : sum words % 65535 = words.sum % 65535 := sum_modEq words
  have bound := sum_lt small
  have zero : sum words = 0 ↔ words.sum = 0 := sum_eq_zero_iff
  omega

/-- The words of a list taken with their bytes swapped add up to 256 times as much. -/
theorem swap_modEq (low high : Nat) : 256 * low + high ≡ 256 * (low + 256 * high) [MOD 65535] := by
  refine (Nat.modEq_iff_dvd' (by omega)).mpr ⟨high, ?_⟩
  omega

theorem sum_map_modEq {f g : Nat → Nat} (c : Nat) (each : ∀ i, f i ≡ c * g i [MOD 65535]) (is : List Nat) :
    (is.map f).sum ≡ c * (is.map g).sum [MOD 65535] := by
  induction is with
  | nil => rfl
  | cons i is ih =>
    rw [map_cons, map_cons, sum_cons, sum_cons, Nat.mul_add]
    exact (each i).add ih

theorem sum_map_eq_zero_iff {f g : Nat → Nat} (each : ∀ i, f i = 0 ↔ g i = 0) (is : List Nat) :
    (is.map f).sum = 0 ↔ (is.map g).sum = 0 := by
  induction is with
  | nil => rfl
  | cons i is ih =>
    have first := each i
    rw [map_cons, map_cons, sum_cons, sum_cons]
    omega

/-- One word of a row of words is replaced. -/
theorem sum_map_range_add {f g : Nat → Nat} {n k : Nat} (within : k < n) (others : ∀ i, i ≠ k → f i = g i) :
    ((List.range n).map f).sum + g k = ((List.range n).map g).sum + f k := by
  induction n with
  | zero => omega
  | succ n ih =>
    rw [range_succ, map_append, map_append, sum_append, sum_append, map_singleton,
      map_singleton, sum_singleton, sum_singleton]
    by_cases last : k = n
    · subst last
      have same : (List.range k).map f = (List.range k).map g :=
        map_congr_left fun i member => others i (mem_range.mp member).ne
      rw [same]
      omega
    · have rest := ih (by omega)
      have here := others n (Ne.symm last)
      omega

end OnesComplement
