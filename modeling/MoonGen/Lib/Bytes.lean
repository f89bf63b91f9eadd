import Mathlib.Data.Nat.Digits.Lemmas
import MoonGen.Lib.Memory

namespace Bytes

open Memory
open List

/-- The number that bytes stand for, least significant byte first. -/
def ofLe (xs : List UInt8) : Nat := Nat.ofDigits 256 (xs.map UInt8.toNat)

/-- A number of `k` bytes with its bytes in the reverse order. -/
def bswap (k v : Nat) : Nat := ofLe (leBytes k v).reverse

/-- The store of bytes into an object, if they lie inside of it. -/
def write (obj : List UInt8) (a : Nat) (xs : List UInt8) : Option (List UInt8) :=
  if a + xs.length ≤ obj.length then some (obj.take a ++ xs ++ obj.drop (a + xs.length)) else none

theorem ofLe_cons (x : UInt8) (xs : List UInt8) : ofLe (x :: xs) = x.toNat + 256 * ofLe xs :=
  Nat.ofDigits_cons ..

theorem ofLe_append (xs ys : List UInt8) : ofLe (xs ++ ys) = ofLe xs + 256 ^ xs.length * ofLe ys := by
  rw [ofLe, map_append, Nat.ofDigits_append, length_map]
  rfl

theorem ofLe_lt (xs : List UInt8) : ofLe xs < 256 ^ xs.length := by
  induction xs with
  | nil => decide
  | cons x xs ih =>
    have byte := x.toNat_lt
    rw [ofLe_cons, length_cons, Nat.pow_succ]
    omega

theorem ofLe_leBytes (k v : Nat) : ofLe (leBytes k v) = v % 256 ^ k := by
  induction k generalizing v with
  | zero => rw [leBytes, Nat.pow_zero, Nat.mod_one]; rfl
  | succ k ih =>
    rw [leBytes, ofLe_cons, ih, Nat.pow_succ, Nat.mul_comm (256 ^ k), Nat.mod_mul]
    rfl

theorem leBytes_succ' (k v : Nat) : leBytes (k + 1) v = leBytes k v ++ [.ofNat (v / 256 ^ k)] := by
  induction k generalizing v with
  | zero => rw [Nat.pow_zero, Nat.div_one]; rfl
  | succ k ih =>
    rw [leBytes, ih, Nat.div_div_eq_div_mul, ← Nat.pow_succ']
    rfl

theorem leBytes_ofLe (xs : List UInt8) : leBytes xs.length (ofLe xs) = xs := by
  induction xs with
  | nil => rfl
  | cons x xs ih =>
    have byte := x.toNat_lt
    have rest : ofLe (x :: xs) / 256 = ofLe xs := by
      rw [ofLe_cons]
      omega
    have first : UInt8.ofNat (ofLe (x :: xs)) = x := by
      rw [ofLe_cons, ← UInt8.toNat_inj, UInt8.toNat_ofNat']
      omega
    rw [length_cons, leBytes, rest, ih, first]

theorem leBytes_ofLe_of_length {xs : List UInt8} {k : Nat} (length : xs.length = k) : leBytes k (ofLe xs) = xs := by
  rw [← length, leBytes_ofLe]

theorem ofLe_injective {xs ys : List UInt8} (length : xs.length = ys.length) (same : ofLe xs = ofLe ys) : xs = ys := by
  rw [← leBytes_ofLe xs, ← leBytes_ofLe ys, length, same]

/-- Two lists differ first in `x` and `y`. -/
def DifferFirst (xs ys : List UInt8) (x y : UInt8) : Prop :=
  x ≠ y ∧ ∃ common xs' ys', xs = common ++ x :: xs' ∧ ys = common ++ y :: ys'

/-- Two lists differ last in `x` and `y`. -/
def DifferLast (xs ys : List UInt8) (x y : UInt8) : Prop := DifferFirst xs.reverse ys.reverse x y

theorem exists_differFirst {xs ys : List UInt8} (length : xs.length = ys.length) (other : xs ≠ ys) :
    ∃ x y, DifferFirst xs ys x y := by
  induction xs generalizing ys with
  | nil => exact absurd (length_eq_zero_iff.mp length.symm).symm other
  | cons x xs ih =>
    obtain ⟨y, ys, rfl⟩ := exists_cons_of_length_eq_add_one length.symm
    by_cases same : x = y
    · subst same
      obtain ⟨u, v, differ, common, us, vs, rfl, rfl⟩ := ih (Nat.succ.inj length) fun equal => other (congrArg _ equal)
      exact ⟨u, v, differ, x :: common, us, vs, rfl, rfl⟩
    · exact ⟨x, y, same, [], xs, ys, rfl, rfl⟩

/-- The last bytes that differ decide which number is smaller. -/
theorem ofLe_lt_iff {xs ys : List UInt8} {x y : UInt8} (length : xs.length = ys.length)
    (differ : DifferLast xs ys x y) : ofLe xs < ofLe ys ↔ x < y := by
  obtain ⟨other, common, us, vs, left, right⟩ := differ
  rw [reverse_eq_iff, reverse_append, reverse_cons, append_assoc] at left right
  have lengths : vs.reverse.length = us.reverse.length := by
    rw [left, right] at length
    simpa using length.symm
  have low := ofLe_lt us.reverse
  have low' := ofLe_lt vs.reverse
  rw [lengths] at low'
  rw [left, right, singleton_append, singleton_append, ofLe_append, ofLe_append, lengths, ofLe_cons,
    ofLe_cons, UInt8.lt_iff_toNat_lt]
  generalize 256 ^ us.reverse.length = size at low low'
  generalize 256 * ofLe common.reverse = high
  rw [Nat.mul_add, Nat.mul_add]
  constructor
  · intro less
    by_contra most
    have step : size * (y.toNat + 1) ≤ size * x.toNat := by
      refine Nat.mul_le_mul_left _ ?_
      have distinct := UInt8.toNat_inj.not.mpr other
      omega
    rw [Nat.mul_succ] at step
    omega
  · intro less
    have step : size * (x.toNat + 1) ≤ size * y.toNat := Nat.mul_le_mul_left _ less
    rw [Nat.mul_succ] at step
    omega

theorem leBytes_bswap (k v : Nat) : leBytes k (bswap k v) = (leBytes k v).reverse :=
  leBytes_ofLe_of_length (by rw [length_reverse, length_leBytes])

theorem bswap_lt (k v : Nat) : bswap k v < 256 ^ k := by
  have bound := ofLe_lt (leBytes k v).reverse
  rwa [length_reverse, length_leBytes] at bound

theorem bswap_bswap (k v : Nat) : bswap k (bswap k v) = v % 256 ^ k := by
  rw [bswap, leBytes_bswap, reverse_reverse, ofLe_leBytes]

theorem word_eq_ofLe (mem : Memory) (a k : Nat) : mem.word a k = ofLe (mem.slice a k) := by
  induction k generalizing a with
  | zero => rfl
  | succ k ih => rw [word, slice, ofLe_cons, ih]

/-- A word in network byte order. -/
theorem bswap_word (mem : Memory) (a k : Nat) : bswap k (mem.word a k) = ofLe (mem.slice a k).reverse := by
  rw [bswap, word_eq_ofLe, leBytes_ofLe_of_length (length_slice mem a k)]

theorem write_append {old xs : List UInt8} (size : old.length = xs.length) (front back : List UInt8) :
    write (front ++ old ++ back) front.length xs = some (front ++ xs ++ back) := by
  have inside : front.length + xs.length ≤ (front ++ old ++ back).length := by
    simp only [length_append]
    omega
  have before : (front ++ old ++ back).take front.length = front := by
    rw [append_assoc, take_left]
  have behind : (front ++ old ++ back).drop (front.length + xs.length) = back := by
    rw [← size, ← length_append, drop_left]
  rw [write, if_pos inside, before, behind]

theorem write_of_beyond {obj xs : List UInt8} {a : Nat} (beyond : obj.length < a + xs.length) : write obj a xs = none :=
  if_neg (Nat.not_le.mpr beyond)

end Bytes
