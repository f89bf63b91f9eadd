import MoonGen.Histogram.Percentile

namespace MoonGen

open List

namespace LuaHistogram

variable {α : Type*} {xs : List α} {m : Nat}

/-- The sample at a place, once so many samples have been passed. -/
def passed (xs : List α) (m place : Nat) : Option α := if place < m then xs[place]? else none

theorem passed_of_lt {place : Nat} (before : place < m) : passed xs m place = xs[place]? := if_pos before

theorem passed_succ {k : α} (next : xs[m]? = some k) (place : Nat) :
    passed xs (m + 1) place = if place = m then some k else passed xs m place := by
  unfold passed
  by_cases here : place = m
  · rw [if_pos here, if_pos (by omega), here, next]
  · rw [if_neg here]
    exact if_congr (by omega) rfl rfl

/-- A place is taken by the sample that comes next exactly when it is that sample's. -/
theorem passed_isNone_iff (inside : m < xs.length) (place : Nat) :
    ((passed xs m place).isNone ∧ place ≤ m) ↔ place = m := by
  unfold passed
  split
  · rename_i before
    rw [getElem?_eq_getElem (by omega)]
    simp only [Option.isNone_some, Bool.false_eq_true, false_and, false_iff]
    omega
  · simp only [Option.isNone_none, true_and]
    omega

/-- The quartiles found among the samples passed so far. -/
def passedQuarts (xs : List α) (q : ℚ) (m : Nat) : Quarts α :=
  ⟨passed xs m ⌈q⌉₊, passed xs m ⌈q * 2⌉₊, passed xs m ⌈q * 3⌉₊⟩

/-- The state of the loop once so many samples have been passed. The count is not
kept any more when the loop was left after the third quartile. -/
def Passed (xs : List α) (q : ℚ) (m : Nat) (state : Quarts α × Nat) : Prop :=
  state.1 = passedQuarts xs q m ∧ (state.2 = m ∨ ⌈q * 3⌉₊ < m)

variable {q : ℚ}

/-- The three places do not meet, so that one sample is never two of the quartiles. -/
def Apart (q : ℚ) : Prop := ⌈q⌉₊ < ⌈q * 2⌉₊ ∧ ⌈q * 2⌉₊ < ⌈q * 3⌉₊

theorem passedQuarts_eq_of_lt (apart : Apart q) {m' : Nat} (before : ⌈q * 3⌉₊ < m) (more : m ≤ m') :
    passedQuarts xs q m' = passedQuarts xs q m := by
  obtain ⟨first, second⟩ := apart
  unfold passedQuarts
  iterate 6 rw [passed_of_lt (by omega)]

theorem quartCell_succ (k : α) (v : Nat) (apart : Apart q) (next : xs[m]? = some k) :
    quartCell q k (v + 1) (passedQuarts xs q m, m) =
      if ⌈q * 3⌉₊ = m then (passedQuarts xs q (m + 1), m) else quartCell q k v (passedQuarts xs q (m + 1), m + 1) := by
  obtain ⟨first, second⟩ := apart
  obtain ⟨inside, -⟩ := List.getElem?_eq_some_iff.mp next
  rw [quartCell]
  simp only [passedQuarts, ge_iff_le, ← Nat.ceil_le, passed_isNone_iff inside, passed_succ next]
  by_cases here : ⌈q⌉₊ = m
  · rw [if_pos here, if_neg (by omega), if_pos here, if_neg (by omega), if_neg (by omega)]
  · rw [if_neg here, if_neg here]
    by_cases here : ⌈q * 2⌉₊ = m
    · rw [if_pos here, if_neg (by omega), if_pos here, if_neg (by omega)]
    · rw [if_neg here, if_neg here]
      by_cases here : ⌈q * 3⌉₊ = m
      · rw [if_pos here, if_pos here, if_pos here]
      · rw [if_neg here, if_neg here, if_neg here]

/-- Once all three are found nothing changes any more. -/
theorem quartCell_done (k : α) (v : Nat) {quarts : Quarts α} (first : quarts.first.isSome)
    (second : quarts.second.isSome) (third : quarts.third.isSome) (idx : Nat) :
    (quartCell q k v (quarts, idx)).1 = quarts := by
  induction v generalizing idx with
  | zero => rfl
  | succ v ih =>
    rw [quartCell]
    simp only [Option.isNone_eq_false_iff.mpr first, Option.isNone_eq_false_iff.mpr second,
      Option.isNone_eq_false_iff.mpr third, Bool.false_eq_true, false_and, if_false]
    exact ih (idx + 1)

theorem passedQuarts_isSome (apart : Apart q) (before : ⌈q * 3⌉₊ < m) (inside : m ≤ xs.length) :
    (passedQuarts xs q m).first.isSome ∧ (passedQuarts xs q m).second.isSome ∧ (passedQuarts xs q m).third.isSome := by
  obtain ⟨first, second⟩ := apart
  unfold passedQuarts
  iterate 3 rw [passed_of_lt (by omega)]
  exact ⟨by simp; omega, by simp; omega, by simp; omega⟩

theorem Passed.quartCell (apart : Apart q) {k : α} {v : Nat} {state : Quarts α × Nat} (inside : m + v ≤ xs.length)
    (copies : ∀ j < v, xs[m + j]? = some k) (passed : Passed xs q m state) :
    Passed xs q (m + v) (quartCell q k v state) := by
  induction v generalizing m state with
  | zero => exact passed
  | succ v ih =>
    obtain ⟨quarts, idx⟩ := state
    obtain ⟨rfl, place⟩ := passed
    by_cases done : ⌈q * 3⌉₊ < m
    · obtain ⟨first, second, third⟩ := @passedQuarts_isSome _ xs m q apart done (by omega)
      refine ⟨?_, .inr (by omega)⟩
      rw [quartCell_done k _ first second third]
      exact (passedQuarts_eq_of_lt apart done (by omega)).symm
    · obtain rfl : idx = m := place.resolve_right done
      have next : xs[idx]? = some k := copies 0 (by omega)
      rw [quartCell_succ k v apart next]
      split
      · exact ⟨(passedQuarts_eq_of_lt apart (by omega) (by omega)).symm, .inr (by omega)⟩
      · have rest (j : Nat) (less : j < v) : xs[idx + 1 + j]? = some k := by
          rw [Nat.add_assoc, Nat.add_comm 1]
          exact copies (j + 1) (by omega)
        have passed := @ih (idx + 1) (passedQuarts xs q (idx + 1), idx + 1) (by omega) rest ⟨rfl, .inl rfl⟩
        rwa [Nat.add_assoc, Nat.add_comm 1] at passed

theorem Passed.cells (apart : Apart q) {front : List α} {cells : List (α × Nat)} {state : Quarts α × Nat}
    (passed : Passed (front ++ expand cells) q front.length state) :
    Passed (front ++ expand cells) q (front ++ expand cells).length
      (cells.foldl (fun state p => LuaHistogram.quartCell q p.1 p.2 state) state) := by
  induction cells generalizing front state with
  | nil =>
    rw [show front ++ expand [] = front from append_nil front] at passed ⊢
    exact passed
  | cons p cells ih =>
    obtain ⟨k, v⟩ := p
    rw [expand_cons, ← append_assoc] at passed ⊢
    refine ih ?_
    have copies (j : Nat) (less : j < v) :
        (front ++ List.replicate v k ++ expand cells)[front.length + j]? = some k := by
      rw [append_assoc, getElem?_append_right (by omega), Nat.add_sub_cancel_left,
        getElem?_append_left (by rwa [length_replicate]), getElem?_replicate, if_pos less]
    have cell := passed.quartCell apart (by simp only [length_append, length_replicate]; omega) copies
    rwa [length_append, length_replicate]

/-- The loop finds the samples at the three places, whatever the cells are. -/
theorem findQuarts_eq {n : Nat} {cells : List (α × Nat)} (apart : Apart ((n : ℚ) / 4))
    (count : (expand cells).length = n) (inside : ⌈(n : ℚ) / 4 * 3⌉₊ < n) :
    findQuarts n cells =
      ⟨(expand cells)[⌈(n : ℚ) / 4⌉₊]?, (expand cells)[⌈(n : ℚ) / 4 * 2⌉₊]?, (expand cells)[⌈(n : ℚ) / 4 * 3⌉₊]?⟩ := by
  have start : Passed ([] ++ expand cells) ((n : ℚ) / 4) 0 ({}, 0) := ⟨rfl, .inl rfl⟩
  have all := (Passed.cells apart start).1
  rw [nil_append, count] at all
  rw [findQuarts, all, passedQuarts]
  obtain ⟨first, second⟩ := apart
  iterate 3 rw [passed_of_lt (by omega)]

theorem apart_of_le {n : Nat} (enough : 4 ≤ n) : Apart ((n : ℚ) / 4) ∧ ⌈(n : ℚ) / 4 * 3⌉₊ < n := by
  have one : 1 ≤ (n : ℚ) / 4 := by
    rw [le_div_iff₀ (by norm_num)]
    exact_mod_cast enough
  have first := Nat.ceil_lt_add_one (by linarith : 0 ≤ (n : ℚ) / 4)
  have second := Nat.ceil_lt_add_one (by linarith : 0 ≤ (n : ℚ) / 4 * 2)
  have third := Nat.ceil_lt_add_one (by linarith : 0 ≤ (n : ℚ) / 4 * 3)
  refine ⟨⟨Nat.lt_ceil.mpr (by linarith), Nat.lt_ceil.mpr (by linarith)⟩, ?_⟩
  have : ((⌈(n : ℚ) / 4 * 3⌉₊ : Nat) : ℚ) < n := by linarith
  exact_mod_cast this

end LuaHistogram

open LuaHistogram

variable {α : Type*} [LinearOrder α]

/-- With four samples or more the quartiles are the samples at a quarter, a half and
three quarters of their number, for every grouping into cells. -/
theorem findQuarts_orderStat {samples : List α} (enough : 4 ≤ samples.length) {cells : List (α × Nat)}
    (all : (expand cells).Perm samples) (sorted : cells.Pairwise fun a b => a.1 ≤ b.1) :
    findQuarts samples.length cells =
      ⟨orderStat samples ⌈(samples.length : ℚ) / 4⌉₊, orderStat samples ⌈(samples.length : ℚ) / 2⌉₊,
        orderStat samples ⌈3 * (samples.length : ℚ) / 4⌉₊⟩ := by
  obtain ⟨apart, inside⟩ := apart_of_le enough
  have half : (samples.length : ℚ) / 4 * 2 = samples.length / 2 := by ring
  have most : (samples.length : ℚ) / 4 * 3 = 3 * samples.length / 4 := by ring
  rw [findQuarts_eq apart all.length_eq inside, half, most]
  iterate 3 rw [getElem?_expand all sorted]

theorem quarter_places {n : Nat} (enough : 4 ≤ n) :
    ⌈(n : ℚ) / 4⌉₊ ≤ ⌈(n : ℚ) / 2⌉₊ ∧ ⌈(n : ℚ) / 2⌉₊ ≤ ⌈3 * (n : ℚ) / 4⌉₊ ∧ ⌈3 * (n : ℚ) / 4⌉₊ < n := by
  obtain ⟨⟨first, second⟩, inside⟩ := apart_of_le enough
  have half : (n : ℚ) / 4 * 2 = n / 2 := by ring
  have most : (n : ℚ) / 4 * 3 = 3 * n / 4 := by ring
  rw [half] at first second
  rw [most] at second inside
  exact ⟨first.le, second.le, inside⟩

/-- The quartiles are samples in their order and the same as the percentiles, for
every order of `pairs` and every grouping of the samples into cells. -/
theorem quartiles_percentiles {h : LuaHistogram α} {samples : List α} {order order' : List (α × Nat)}
    (filled : Filled h samples) (perm : order.Perm h.histo.entries) (perm' : order'.Perm h.histo.entries)
    (enough : 4 ≤ samples.length) :
    ∃ x y z, h.quartiles order = ⟨some x, some y, some z⟩ ∧ x ≤ y ∧ y ≤ z ∧ x ∈ samples ∧ y ∈ samples ∧ z ∈ samples ∧
      h.percentile order' 25 = .ok (some x) ∧ h.percentile order' 50 = .ok (some y) ∧
      h.percentile order' 75 = .ok (some z) ∧
      orderStat samples ⌈(samples.length : ℚ) / 4⌉₊ = some x ∧
      orderStat samples ⌈(samples.length : ℚ) / 2⌉₊ = some y ∧
      orderStat samples ⌈3 * (samples.length : ℚ) / 4⌉₊ = some z ∧
      ∀ cells, (expand cells).Perm samples → (cells.Pairwise fun a b => a.1 ≤ b.1) →
        findQuarts samples.length cells = ⟨some x, some y, some z⟩ := by
  obtain ⟨first, second, inside⟩ := quarter_places enough
  obtain ⟨x, atX⟩ := @exists_orderStat _ _ samples ⌈(samples.length : ℚ) / 4⌉₊ (by omega)
  obtain ⟨y, atY⟩ := @exists_orderStat _ _ samples ⌈(samples.length : ℚ) / 2⌉₊ (by omega)
  obtain ⟨z, atZ⟩ := @exists_orderStat _ _ samples ⌈3 * (samples.length : ℚ) / 4⌉₊ (by omega)
  have groups (cells : List (α × Nat)) (all : (expand cells).Perm samples)
      (sorted : cells.Pairwise fun a b => a.1 ≤ b.1) :
      findQuarts samples.length cells = ⟨some x, some y, some z⟩ := by
    rw [findQuarts_orderStat enough all sorted, atX, atY, atZ]
  obtain ⟨all, sorted⟩ := filled.expand_sortedHisto perm
  have done := filled.calculated perm
  have quarts : h.quartiles order = ⟨some x, some y, some z⟩ := by
    rw [quartiles, done.quarts, ← done.sortedHisto]
    exact groups _ all sorted
  have quarter : (samples.length : ℚ) * 25 / 100 = samples.length / 4 := by ring
  have half : (samples.length : ℚ) * 50 / 100 = samples.length / 2 := by ring
  have most : (samples.length : ℚ) * 75 / 100 = 3 * samples.length / 4 := by ring
  refine ⟨x, y, z, quarts, orderStat_mono first atX atY, orderStat_mono second atY atZ, orderStat_mem atX,
    orderStat_mem atY, orderStat_mem atZ, ?_, ?_, ?_, atX, atY, atZ, groups⟩
  · rw [filled.percentile perm' (by norm_num) (by norm_num), quarter, atX]
  · rw [filled.percentile perm' (by norm_num) (by norm_num), half, atY]
  · rw [filled.percentile perm' (by norm_num) (by norm_num), most, atZ]

theorem quartiles_percentiles_four :
    ∃ x y z, ((((create.update (some 5)).update (some 3)).update (some 5)).update (some 8)).quartiles
      [(8, 1), (5, 2), (3, 1)] = ⟨some x, some y, some z⟩ ∧ x ≤ y ∧ y ≤ z := by
  have filled := (((Filled.create.update 5).update 3).update 5).update 8
  have perm : [(8, 1), (5, 2), (3, 1)].Perm [(3, 1), (5, 2), (8, 1)] := by decide
  obtain ⟨x, y, z, quarts, low, high, -⟩ := quartiles_percentiles filled perm perm (by decide)
  exact ⟨x, y, z, quarts, low, high⟩

end MoonGen
