import Mathlib.Algebra.Order.Group.Nat
import Mathlib.Data.Nat.Find

/-- `while (test(count)) count *= 2`, for at most `fuel` rounds. -/
def doubling (test : Nat → Bool) : Nat → Nat → Nat
  | 0, count => count
  | fuel + 1, count => if test count then doubling test fuel (count * 2) else count

/-- The loop that starts at 1 leaves by its own test after `rounds` rounds. -/
structure Doubles (test : Nat → Bool) (rounds : Nat) : Prop where
  going : ∀ i < rounds, test (2 ^ i) = true
  ended : test (2 ^ rounds) = false

/-- It ends no later than at any power of two where the test is known to fail. -/
theorem exists_doubles {test : Nat → Bool} {top : Nat} (stop : test (2 ^ top) = false) :
    ∃ rounds ≤ top, Doubles test rounds := by
  have stops : ∃ i, test (2 ^ i) = false := ⟨top, stop⟩
  refine ⟨Nat.find stops, Nat.find_min' stops stop, fun i before => ?_, Nat.find_spec stops⟩
  exact Bool.eq_true_of_not_eq_false (Nat.find_min stops before)

theorem Doubles.doubling_from {test : Nat → Bool} {rounds fuel i : Nat} (ends : Doubles test rounds)
    (low : i ≤ rounds) (enough : rounds ≤ i + fuel) : doubling test fuel (2 ^ i) = 2 ^ rounds := by
  induction fuel generalizing i with
  | zero =>
    have last : i = rounds := by omega
    rw [last, doubling]
  | succ fuel ih =>
    rcases Nat.lt_or_eq_of_le low with less | same
    · rw [doubling, if_pos (ends.going i less), ← Nat.pow_succ]
      exact ih (by omega) (by omega)
    · rw [same, doubling, ends.ended]
      rfl

/-- With enough fuel the value of the loop is the power of two that it ends at. -/
theorem Doubles.doubling_eq {test : Nat → Bool} {rounds fuel : Nat} (ends : Doubles test rounds)
    (enough : rounds ≤ fuel) : doubling test fuel 1 = 2 ^ rounds :=
  ends.doubling_from (Nat.zero_le rounds) (by omega)
