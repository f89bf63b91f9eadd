import Mathlib.Data.List.Basic
import Mathlib.Logic.Function.Basic

universe u

variable {α : Type u}

/-- The slots of a table, counted from one, while elements are moved over the gaps
before them: first what is kept, then the gap, then what the pass has yet to visit. -/
structure Compacting (slots : Nat → Option α) (kept : List α) (gap : Nat) (rest : List α) : Prop where
  front : ∀ k, k < kept.length → slots (k + 1) = kept[k]?
  hole : ∀ k, k < gap → slots (kept.length + k + 1) = none
  back : ∀ k, slots (kept.length + gap + k + 1) = rest[k]?

namespace Compacting

open Function List

variable {slots : Nat → Option α} {kept rest : List α} {gap : Nat} {x : α}

theorem visited (layout : Compacting slots kept gap (x :: rest)) : slots (kept.length + gap + 1) = some x :=
  layout.back 0

/-- The element is dropped and the gap grows. -/
theorem drop (layout : Compacting slots kept gap (x :: rest)) :
    Compacting (update slots (kept.length + gap + 1) none) kept (gap + 1) rest where
  front k inside := by
    rw [update_of_ne (by omega)]
    exact layout.front k inside
  hole k inside := by
    by_cases last : k = gap
    · rw [last, update_self]
    · rw [update_of_ne (by omega)]
      exact layout.hole k (by omega)
  back k := by
    rw [update_of_ne (by omega),
      show kept.length + (gap + 1) + k + 1 = kept.length + gap + (k + 1) + 1 by omega,
      layout.back (k + 1), getElem?_cons_succ]

/-- With no gap the element stays where it is. -/
theorem stay (layout : Compacting slots kept 0 (x :: rest)) : Compacting slots (kept ++ [x]) 0 rest where
  front k inside := by
    by_cases last : k = kept.length
    · subst last
      rw [getElem?_concat_length]
      exact layout.visited
    · rw [length_append, length_singleton] at inside
      rw [getElem?_append_left (by omega)]
      exact layout.front k (by omega)
  hole k inside := absurd inside (Nat.not_lt_zero k)
  back k := by
    rw [length_append, length_singleton,
      show kept.length + 1 + 0 + k + 1 = kept.length + 0 + (k + 1) + 1 by omega, layout.back (k + 1),
      getElem?_cons_succ]

/-- Otherwise it goes to the front of the gap, and the gap takes its place. -/
theorem move (layout : Compacting slots kept gap (x :: rest)) (wide : 0 < gap) :
    Compacting (update (update slots (kept.length + gap + 1) none) (kept.length + 1) (some x))
      (kept ++ [x]) gap rest where
  front k inside := by
    by_cases last : k = kept.length
    · rw [last, update_self, getElem?_concat_length]
    · rw [length_append, length_singleton] at inside
      rw [getElem?_append_left (by omega), update_of_ne (by omega), update_of_ne (by omega)]
      exact layout.front k (by omega)
  hole k inside := by
    rw [length_append, length_singleton, update_of_ne (by omega)]
    by_cases last : k + 1 = gap
    · rw [show kept.length + 1 + k + 1 = kept.length + gap + 1 by omega, update_self]
    · rw [update_of_ne (by omega), show kept.length + 1 + k + 1 = kept.length + (k + 1) + 1 by omega]
      exact layout.hole (k + 1) (by omega)
  back k := by
    rw [length_append, length_singleton, update_of_ne (by omega), update_of_ne (by omega),
      show kept.length + 1 + gap + k + 1 = kept.length + gap + (k + 1) + 1 by omega, layout.back (k + 1),
      getElem?_cons_succ]

/-- A table that holds a list is where a pass begins. -/
theorem start {xs : List α} (holds : ∀ k, slots (k + 1) = xs[k]?) : Compacting slots [] 0 xs where
  front k inside := absurd inside (Nat.not_lt_zero k)
  hole k inside := absurd inside (Nat.not_lt_zero k)
  back k := by rw [length_nil, Nat.add_zero, Nat.zero_add, holds k]

/-- Behind the pass the table holds what is kept and nothing else. -/
theorem finish (layout : Compacting slots kept gap []) (k : Nat) : slots (k + 1) = kept[k]? := by
  rcases Nat.lt_or_ge k kept.length with inside | beyond
  · exact layout.front k inside
  · rw [getElem?_eq_none beyond]
    rcases Nat.lt_or_ge k (kept.length + gap) with hole | after
    · have absent := layout.hole (k - kept.length) (by omega)
      rwa [show kept.length + (k - kept.length) + 1 = k + 1 by omega] at absent
    · have absent := layout.back (k - kept.length - gap)
      rwa [show kept.length + gap + (k - kept.length - gap) + 1 = k + 1 by omega, getElem?_nil] at absent

end Compacting
