import Mathlib.Algebra.Order.Field.Rat
import Mathlib.Data.List.ReduceOption

namespace Lua

/-- A number, with the finite ones as the rationals they stand for. -/
inductive Number
  | finite (q : ℚ)
  | inf
  | negInf
  | nan
deriving DecidableEq

namespace Number

def ofNat (n : Nat) : Number := finite n

def positive : Number → Bool
  | finite q => 0 < q
  | inf => true
  | negInf => false
  | nan => false

/-- The order of numbers. Nothing is below or above `nan`. -/
def lt : Number → Number → Bool
  | nan, _ | _, nan => false
  | finite a, finite b => a < b
  | finite _, inf => true
  | finite _, negInf => false
  | inf, _ => false
  | negInf, negInf => false
  | negInf, _ => true

def le (a b : Number) : Bool := a.lt b || (a ≠ nan && a = b)

theorem ofNat_injective : Function.Injective ofNat := by
  intro m n same
  exact Nat.cast_injective (finite.inj same)

theorem positive_ofNat {n : Nat} : (ofNat n).positive = true ↔ 0 < n := by
  rw [ofNat, positive, decide_eq_true_eq, Nat.cast_pos]

theorem lt_zero_ofNat (n : Nat) : (ofNat n).lt (ofNat 0) = false := by
  rw [ofNat, ofNat, lt, decide_eq_false_iff_not, Nat.cast_lt]
  exact Nat.not_lt_zero n

theorem le_ofNat {m n : Nat} : (ofNat m).le (ofNat n) = true ↔ m ≤ n := by
  have same : ofNat m = ofNat n ↔ m = n := ofNat_injective.eq_iff
  have below : (ofNat m).lt (ofNat n) = true ↔ m < n := by
    rw [ofNat, ofNat, lt, decide_eq_true_eq, Nat.cast_lt]
  simp only [le, Bool.or_eq_true, below, Bool.and_eq_true, decide_eq_true_eq, same]
  constructor
  · rintro (less | ⟨_, equal⟩) <;> omega
  · intro least
    rcases Nat.lt_or_eq_of_le least with less | equal
    · exact .inl less
    · exact .inr ⟨nofun, equal⟩

end Number

/-- The function `string.lower`. -/
def lower (s : List Char) : List Char := s.map Char.toLower

/-- The function `tonumber` on texts, of which only the value of decimal digits is known. Lua reads them
exactly only below `2 ^ 53`, where the numbers of devices are. -/
structure ToNumber where
  tonumber : List Char → Option Number
  decimal : ∀ n, tonumber (Nat.toDigits 10 n) = some (.ofNat n)

variable {α : Type*} (truthy : α → Bool)

/-- The operator `or`, where `none` is `nil`. -/
def or (a b : Option α) : Option α :=
  match a with
  | some v => if truthy v then some v else b
  | none => b

/-- A row of alternatives gives the first value that counts as true. -/
theorem foldr_or (xs : List (Option α)) : xs.foldr (or truthy) none = xs.reduceOption.find? truthy := by
  induction xs with
  | nil => rfl
  | cons x xs ih =>
    cases x with
    | none => exact ih
    | some v =>
      rw [List.foldr_cons, ih, or, List.reduceOption_cons_of_some, List.find?_cons]
      cases truthy v <;> rfl

/-- That is the first value there is unless that one counts as false. -/
theorem find?_eq_head?_iff (xs : List α) : xs.find? truthy = xs.head? ↔ ∀ v ∈ xs.head?, truthy v = true := by
  constructor
  · intro same v first
    exact List.find?_some (same.trans first)
  · intro first
    cases xs with
    | nil => rfl
    | cons v xs => rw [List.find?_cons_of_pos (first v rfl), List.head?_cons]

end Lua
