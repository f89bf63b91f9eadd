import Mathlib.Order.Bounds.Defs
import Mathlib.Order.Lattice

variable {α : Type*} [LinearOrder α]

/-- The element at a place, counted from zero, when a list is in order. -/
def orderStat (xs : List α) (i : Nat) : Option α := (xs.mergeSort (fun a b => decide (a ≤ b)))[i]?

/-- How many elements are below a value. -/
def countBelow (xs : List α) (x : α) : Nat := xs.countP fun y => decide (y < x)

/-- How many elements are at or below a value. -/
def countUpto (xs : List α) (x : α) : Nat := xs.countP fun y => decide (y ≤ x)

/-- Sorting by a key makes a list with the keys in order. -/
theorem mergeSort_key_sorted {β : Type*} (key : β → α) (xs : List β) :
    (xs.mergeSort fun a b => decide (key a ≤ key b)).Pairwise fun a b => key a ≤ key b := by
  have sorted : (xs.mergeSort fun a b => decide (key a ≤ key b)).Pairwise fun a b => decide (key a ≤ key b) = true := by
    refine List.pairwise_mergeSort (fun a b c first second => ?_) (fun a b => ?_) xs
    · simp only [decide_eq_true_eq] at first second ⊢
      exact le_trans first second
    · simp only [Bool.or_eq_true, decide_eq_true_eq]
      exact le_total (key a) (key b)
  simpa only [decide_eq_true_eq] using sorted

/-- A list with its keys in order is what sorting makes of any list with the same
elements, when no two of them share a key. -/
theorem mergeSort_key_eq_of_perm {β : Type*} {key : β → α} {xs ys : List β} (perm : ys.Perm xs)
    (sorted : ys.Pairwise fun a b => key a ≤ key b) (distinct : ∀ a ∈ ys, ∀ b ∈ ys, key a = key b → a = b) :
    (xs.mergeSort fun a b => decide (key a ≤ key b)) = ys := by
  have all := (List.mergeSort_perm xs fun a b => decide (key a ≤ key b)).trans perm.symm
  refine all.eq_of_pairwise (fun a b left right low high => ?_) (mergeSort_key_sorted key xs) sorted
  exact distinct a (all.subset left) b right (le_antisymm low high)

theorem mergeSort_sorted (xs : List α) : (xs.mergeSort (fun a b => decide (a ≤ b))).Pairwise (· ≤ ·) :=
  mergeSort_key_sorted id xs

variable {xs : List α}

/-- A sorted list is what sorting makes of any list with the same elements. -/
theorem mergeSort_eq_of_perm {ys : List α} (perm : ys.Perm xs) (sorted : ys.Pairwise (· ≤ ·)) :
    xs.mergeSort (fun a b => decide (a ≤ b)) = ys :=
  @mergeSort_key_eq_of_perm _ _ _ id _ _ perm sorted fun _ _ _ _ => id

variable {x : α}

theorem countUpto_le_countBelow {y : α} (less : x < y) : countUpto xs x ≤ countBelow xs y :=
  List.countP_mono_left fun z _ low => by
    simp only [decide_eq_true_eq] at low ⊢
    exact lt_of_le_of_lt low less

variable {i : Nat}

/-- In a sorted list the elements below the one at a place come before it, and it
is itself among those up to it. -/
theorem countBelow_le_of_getElem? (sorted : xs.Pairwise (· ≤ ·))
    (found : xs[i]? = some x) : countBelow xs x ≤ i ∧ i < countUpto xs x := by
  induction xs generalizing i with
  | nil => simp at found
  | cons a xs ih =>
    obtain ⟨first, rest⟩ := List.pairwise_cons.mp sorted
    cases i with
    | zero =>
      have same : a = x := by simpa using found
      subst same
      have nothing : countBelow xs a = 0 := by
        rw [countBelow, List.countP_eq_zero]
        intro y member
        simpa using first y member
      unfold countBelow at nothing
      simp [countBelow, countUpto, nothing]
    | succ i =>
      have later : xs[i]? = some x := by simpa using found
      obtain ⟨low, high⟩ := ih rest later
      have order : a ≤ x := first x (List.mem_of_getElem? later)
      unfold countBelow countUpto at *
      rw [List.countP_cons, List.countP_cons]
      simp only [decide_eq_true_eq, order, if_true]
      refine ⟨?_, by omega⟩
      split <;> omega

theorem getElem?_eq_some_iff_of_sorted (sorted : xs.Pairwise (· ≤ ·)) :
    xs[i]? = some x ↔ countBelow xs x ≤ i ∧ i < countUpto xs x := by
  refine ⟨countBelow_le_of_getElem? sorted, fun ⟨low, high⟩ => ?_⟩
  have inside : i < xs.length := Nat.lt_of_lt_of_le high List.countP_le_length
  obtain ⟨y, found⟩ : ∃ y, xs[i]? = some y := ⟨_, List.getElem?_eq_getElem inside⟩
  obtain ⟨low', high'⟩ := countBelow_le_of_getElem? sorted found
  rcases lt_trichotomy x y with less | same | more
  · have := @countUpto_le_countBelow _ _ xs _ _ less
    omega
  · rw [same, found]
  · have := @countUpto_le_countBelow _ _ xs _ _ more
    omega

theorem countBelow_perm {ys : List α} (perm : xs.Perm ys) (x : α) : countBelow xs x = countBelow ys x :=
  perm.countP_eq _

theorem countUpto_perm {ys : List α} (perm : xs.Perm ys) (x : α) : countUpto xs x = countUpto ys x :=
  perm.countP_eq _

/-- The element of a rank is told by how many are below it and how many up to it. -/
theorem orderStat_eq_some_iff : orderStat xs i = some x ↔ countBelow xs x ≤ i ∧ i < countUpto xs x := by
  have perm := List.mergeSort_perm xs fun a b => decide (a ≤ b)
  rw [orderStat, getElem?_eq_some_iff_of_sorted (mergeSort_sorted xs), countBelow_perm perm, countUpto_perm perm]

theorem exists_orderStat (inside : i < xs.length) : ∃ x, orderStat xs i = some x := by
  rw [orderStat]
  exact ⟨_, List.getElem?_eq_getElem (by rwa [List.length_mergeSort])⟩

theorem orderStat_mem (found : orderStat xs i = some x) : x ∈ xs :=
  List.mem_mergeSort.mp (List.mem_of_getElem? found)

theorem orderStat_mono {j : Nat} {y : α} (order : i ≤ j) (left : orderStat xs i = some x)
    (right : orderStat xs j = some y) : x ≤ y := by
  rw [orderStat_eq_some_iff] at left right
  by_contra more
  have := @countUpto_le_countBelow _ _ xs _ _ (not_le.mp more)
  omega

/-- The element of rank `r - 1` is the least one that has `r` elements up to it. -/
theorem isLeast_of_orderStat {r : Nat} (positive : 0 < r)
    (found : orderStat xs (r - 1) = some x) : IsLeast {y | y ∈ xs ∧ r ≤ countUpto xs y} x := by
  obtain ⟨low, high⟩ := orderStat_eq_some_iff.mp found
  refine ⟨⟨orderStat_mem found, by omega⟩, fun y ⟨_, enough⟩ => ?_⟩
  by_contra less
  have := @countUpto_le_countBelow _ _ xs _ _ (not_le.mp less)
  omega

theorem countUpto_eq_countBelow_add_count (xs : List α) (x : α) : countUpto xs x = countBelow xs x + xs.count x := by
  induction xs with
  | nil => rfl
  | cons y xs ih =>
    unfold countUpto countBelow at *
    rw [List.countP_cons, List.countP_cons, List.count_cons, ih]
    rcases lt_trichotomy y x with less | same | more
    · simp only [less, le_of_lt less, beq_iff_eq, ne_of_lt less, decide_true, if_true, if_false]
      omega
    · simp only [same, le_refl, lt_irrefl, beq_self_eq_true, decide_true, decide_false, if_true, Bool.false_eq_true,
        if_false]
      omega
    · simp only [not_lt_of_gt more, not_le_of_gt more, beq_iff_eq, ne_of_gt more, decide_false, Bool.false_eq_true,
        if_false]
      omega

/-- A value that more than half of the elements have stands in the middle. -/
theorem orderStat_middle_of_count (most : xs.length < 2 * xs.count x) : orderStat xs (xs.length / 2) = some x := by
  have parts := countUpto_eq_countBelow_add_count xs x
  have all : countUpto xs x ≤ xs.length := List.countP_le_length
  exact orderStat_eq_some_iff.mpr ⟨by omega, by omega⟩
