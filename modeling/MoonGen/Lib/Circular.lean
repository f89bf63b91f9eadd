import Mathlib.Data.List.Basic
import Mathlib.Logic.Function.Basic

universe u

namespace Circular

open Function List Nat

variable {α : Type u}

/-- Writes objects into consecutive slots. -/
def fill (slots : Nat → Option α) : Nat → List α → Nat → Option α
  | _, [] => slots
  | idx, x :: xs => fill (update slots idx (some x)) (idx + 1) xs

/-- The same, four objects in a round and the last ones one by one. -/
def fillUnrolled (slots : Nat → Option α) : Nat → List α → Nat → Option α
  | idx, a :: b :: c :: d :: xs =>
    fillUnrolled (update (update (update (update slots idx (some a))
      (idx + 1) (some b)) (idx + 2) (some c)) (idx + 3) (some d)) (idx + 4) xs
  | idx, xs => fill slots idx xs

/-- Writes objects from a slot on, and goes on at the first slot behind the
last one. -/
def put (size : Nat) (slots : Nat → Option α) (idx : Nat) (xs : List α) : Nat → Option α :=
  if idx + xs.length < size then fillUnrolled slots idx xs
  else fill (fill slots idx (xs.take (size - idx))) 0 (xs.drop (size - idx))

def scan (slots : Nat → Option α) : Nat → Nat → List (Option α)
  | _, 0 => []
  | idx, n + 1 => slots idx :: scan slots (idx + 1) n

def scanUnrolled (slots : Nat → Option α) : Nat → Nat → List (Option α)
  | idx, n + 4 => slots idx :: slots (idx + 1) :: slots (idx + 2) :: slots (idx + 3) :: scanUnrolled slots (idx + 4) n
  | idx, n => scan slots idx n

/-- Reads `n` slots in the same way. -/
def get (size : Nat) (slots : Nat → Option α) (idx n : Nat) : List (Option α) :=
  if idx + n < size then scanUnrolled slots idx n
  else scan slots idx (size - idx) ++ scan slots 0 (n - (size - idx))

/-- The slots hold the items in order, from the first index on and around. -/
def Holds (size : Nat) (slots : Nat → Option α) (first : Nat) (items : List α) : Prop :=
  ∀ i, i < items.length → slots ((first + i) % size) = items[i]?

theorem fillUnrolled_eq (slots : Nat → Option α) (idx : Nat) (xs : List α) :
    fillUnrolled slots idx xs = fill slots idx xs := by
  induction slots, idx, xs using fillUnrolled.induct with
  | case1 slots idx a b c d xs ih => rw [fillUnrolled, ih]; rfl
  | case2 slots idx xs short => rw [fillUnrolled]; exact short

theorem fill_apply (slots : Nat → Option α) (idx : Nat) (xs : List α) (p : Nat) :
    fill slots idx xs p = if idx ≤ p ∧ p < idx + xs.length then xs[p - idx]? else slots p := by
  induction xs generalizing slots idx with
  | nil =>
    rw [if_neg (by simp only [length_nil]; omega)]
    rfl
  | cons x xs ih =>
    rw [fill, ih]
    rcases Nat.lt_trichotomy p idx with below | rfl | above
    · rw [if_neg (by omega), if_neg (by omega), update_of_ne (by omega)]
    · rw [if_neg (by omega), if_pos (by simp), update_self]
      simp
    · have next : p - idx = p - (idx + 1) + 1 := by omega
      rw [update_of_ne (by omega), next, getElem?_cons_succ]
      simp only [length_cons]
      congr 1
      exact propext (by omega)

section
variable {size idx : Nat} {slots : Nat → Option α} {xs : List α}

theorem put_written (inside : idx < size) (fit : xs.length ≤ size) {i : Nat} (bound : i < xs.length) :
    put size slots idx xs ((idx + i) % size) = xs[i]? := by
  unfold put
  split
  · have low : (idx + i) % size = idx + i := mod_eq_of_lt (by omega)
    rw [fillUnrolled_eq, fill_apply, low, if_pos (by omega), Nat.add_sub_cancel_left]
  · rcases Nat.lt_or_ge (idx + i) size with low | high
    · rw [mod_eq_of_lt low, fill_apply, if_neg (by simp; omega), fill_apply, if_pos (by simp; omega),
        Nat.add_sub_cancel_left, getElem?_take_of_lt (by omega)]
    · have wrapped : (idx + i) % size = idx + i - size := by
        rw [mod_eq_sub_mod high, mod_eq_of_lt (by omega)]
      rw [wrapped, fill_apply, if_pos (by simp; omega), getElem?_drop]
      congr 1
      omega

theorem put_kept (inside : idx < size) {p : Nat} (slot : p < size)
    (other : ∀ i, i < xs.length → p ≠ (idx + i) % size) : put size slots idx xs p = slots p := by
  unfold put
  have apart : ∀ i, i < xs.length → idx + i < size → p ≠ idx + i := by
    intro i bound low
    rw [← mod_eq_of_lt low]
    exact other i bound
  split
  · rw [fillUnrolled_eq, fill_apply, if_neg]
    rintro ⟨lower, upper⟩
    exact apart (p - idx) (by omega) (by omega) (by omega)
  · rw [fill_apply, if_neg, fill_apply, if_neg]
    · rintro ⟨lower, upper⟩
      rw [length_take] at upper
      exact apart (p - idx) (by omega) (by omega) (by omega)
    · rintro ⟨_, upper⟩
      rw [length_drop] at upper
      refine other (size - idx + p) (by omega) ?_
      have around : idx + (size - idx + p) = p + size := by omega
      rw [around, add_mod_right, mod_eq_of_lt slot]

end

theorem mod_ne_of_lt {a b size : Nat} (before : a < b) (near : b < a + size) : a % size ≠ b % size := by
  intro same
  have multiple : (b - a) % size = 0 := sub_mod_eq_zero_of_mod_eq same.symm
  rw [mod_eq_of_lt (by omega)] at multiple
  omega

section
variable {size first : Nat} {slots : Nat → Option α} {items xs : List α}

/-- Objects put behind the items are held behind them, as long as they fit. -/
theorem Holds.put (holds : Holds size slots first items) (positive : 0 < size) (fit : items.length + xs.length ≤ size) :
    Holds size (put size slots ((first + items.length) % size) xs) first (items ++ xs) := by
  have inside : (first + items.length) % size < size := mod_lt _ positive
  have slot : ∀ i, ((first + items.length) % size + i) % size = (first + items.length + i) % size := by
    intro i
    rw [mod_add_mod]
  intro i bound
  rw [length_append] at bound
  rcases Nat.lt_or_ge i items.length with old | new
  · rw [put_kept inside (mod_lt _ positive), holds i old, getElem?_append_left old]
    intro j member
    rw [slot]
    exact mod_ne_of_lt (by omega) (by omega)
  · have place : (first + i) % size = ((first + items.length) % size + (i - items.length)) % size := by
      rw [slot]
      congr 1
      omega
    rw [place, put_written inside (by omega) (by omega), getElem?_append_right new]

theorem Holds.drop (holds : Holds size slots first items) (n : Nat) : Holds size slots (first + n) (items.drop n) := by
  intro i bound
  rw [length_drop] at bound
  rw [getElem?_drop, Nat.add_assoc]
  exact holds (n + i) (by omega)

end

theorem scanUnrolled_eq (slots : Nat → Option α) (idx n : Nat) : scanUnrolled slots idx n = scan slots idx n := by
  induction idx, n using scanUnrolled.induct with
  | case1 idx n ih => rw [scanUnrolled, ih]; rfl
  | case2 idx n short => rw [scanUnrolled]; exact short

theorem scan_length (slots : Nat → Option α) (idx n : Nat) : (scan slots idx n).length = n := by
  induction n generalizing idx with
  | zero => rfl
  | succ n ih => rw [scan, length_cons, ih]

theorem scan_getElem? (slots : Nat → Option α) {idx n i : Nat} (bound : i < n) :
    (scan slots idx n)[i]? = some (slots (idx + i)) := by
  induction n generalizing idx i with
  | zero => omega
  | succ n ih =>
    cases i with
    | zero => rfl
    | succ i =>
      rw [scan, getElem?_cons_succ, ih (by omega)]
      congr 2
      omega

section
variable {size : Nat} {slots : Nat → Option α}

theorem get_length {idx n : Nat} (inside : idx < size) : (get size slots idx n).length = n := by
  unfold get
  split
  · rw [scanUnrolled_eq, scan_length]
  · rw [length_append, scan_length, scan_length]
    omega

theorem get_getElem? {idx n i : Nat} (inside : idx < size) (fit : n ≤ size) (bound : i < n) :
    (get size slots idx n)[i]? = some (slots ((idx + i) % size)) := by
  unfold get
  split
  · rw [scanUnrolled_eq, scan_getElem? slots bound, mod_eq_of_lt (by omega)]
  · rcases Nat.lt_or_ge (idx + i) size with low | high
    · rw [getElem?_append_left (by rw [scan_length]; omega), scan_getElem? slots (by omega), mod_eq_of_lt low]
    · rw [getElem?_append_right (by rw [scan_length]; omega), scan_length, scan_getElem? slots (by omega),
        mod_eq_sub_mod high, mod_eq_of_lt (by omega)]
      congr 2
      omega

/-- Reading from the first index on gives the oldest items. -/
theorem Holds.get {first n : Nat} {items : List α} (holds : Holds size slots first items) (positive : 0 < size)
    (fit : items.length ≤ size) (enough : n ≤ items.length) :
    get size slots (first % size) n = (items.take n).map some := by
  have inside : first % size < size := mod_lt _ positive
  apply ext_getElem?
  intro i
  rcases Nat.lt_or_ge i n with bound | behind
  · rw [get_getElem? inside (by omega) bound, mod_add_mod, holds i (by omega), getElem?_map,
      getElem?_take_of_lt bound, getElem?_eq_getElem (by omega)]
    rfl
  · rw [getElem?_eq_none (by rw [get_length inside]; exact behind),
      getElem?_eq_none (by rw [length_map, length_take]; omega)]

end

end Circular
