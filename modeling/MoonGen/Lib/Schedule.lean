import Mathlib.Data.List.Chain
import Mathlib.Algebra.Order.Group.Nat

/-- Departures that keep to a schedule of times at least `gap` apart: the entries
of the schedule are made in time, and nothing leaves before its entry. -/
structure Schedule (gap : Nat) (due left : List Nat) : Prop where
  spaced : due.IsChain (fun a b => a + gap ≤ b)
  planned : left.length ≤ due.length
  late : ∀ k d t : Nat, due[k]? = some d → left[k]? = some t → d ≤ t

namespace Schedule

open List

variable {gap : Nat} {due left : List Nat}

theorem empty : Schedule gap [] [] :=
  ⟨isChain_nil, Nat.le_refl _, by simp⟩

theorem plan (s : Schedule gap due left) {next : Nat} (later : ∀ d ∈ due.getLast?, d + gap ≤ next) :
    Schedule gap (due ++ [next]) left where
  spaced := by
    refine isChain_append.mpr ⟨s.spaced, isChain_singleton _, ?_⟩
    intro d last e first
    simp only [head?_cons, Option.mem_def, Option.some.injEq] at first
    exact first ▸ later d last
  planned := by
    have planned := s.planned
    simp only [length_append, length_singleton]
    omega
  late k d t entry gone := by
    have inside : k < due.length := (List.getElem?_eq_some_iff.mp gone).1.trans_le s.planned
    rw [getElem?_append_left inside] at entry
    exact s.late k d t entry gone

theorem leave (s : Schedule gap due left) {t : Nat} (waiting : left.length + 1 = due.length)
    (passed : ∀ d ∈ due.getLast?, d ≤ t) : Schedule gap due (left ++ [t]) where
  spaced := s.spaced
  planned := by simp [waiting]
  late k d u entry gone := by
    rcases Nat.lt_or_ge k left.length with old | new
    · rw [getElem?_append_left old] at gone
      exact s.late k d u entry gone
    · have inside := (List.getElem?_eq_some_iff.mp entry).1
      have here : k = left.length := by omega
      subst here
      have same : t = u := by simpa using gone
      have last : due.getLast? = some d := by
        rw [getLast?_eq_getElem?, ← waiting]
        exact entry
      exact same ▸ passed d last

theorem entry_from_first (spaced : due.IsChain (fun a b => a + gap ≤ b)) {first d k : Nat}
    (start : due.head? = some first) (entry : due[k]? = some d) : first + k * gap ≤ d := by
  induction k generalizing d with
  | zero =>
    rw [← head?_eq_getElem?, start] at entry
    simpa using (Option.some.inj entry).le
  | succ k ih =>
    obtain ⟨inside, rfl⟩ := List.getElem?_eq_some_iff.mp entry
    have before := ih (getElem?_eq_getElem (Nat.lt_of_succ_lt inside))
    have gap := isChain_iff_getElem.mp spaced k inside
    rw [Nat.succ_mul]
    omega

/-- What leaves as number `k` from zero does so `k` gaps after the first entry. -/
theorem from_first (s : Schedule gap due left) {k t : Nat} (gone : left[k]? = some t) :
    ∃ first, due.head? = some first ∧ first + k * gap ≤ t := by
  have inside : k < due.length := (List.getElem?_eq_some_iff.mp gone).1.trans_le s.planned
  have entry := getElem?_eq_getElem inside
  have start : due.head? = some (due.head (ne_nil_of_length_pos (by omega))) := head?_eq_some_head _
  have spaced := entry_from_first s.spaced start entry
  exact ⟨_, start, spaced.trans (s.late k _ t entry gone)⟩

end Schedule
