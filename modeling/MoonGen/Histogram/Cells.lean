import Mathlib.Algebra.GroupWithZero.Nat
import Mathlib.Data.List.Nodup
import Mathlib.Algebra.Order.Ring.Rat
import MoonGen.Lib.OrderedMap
import MoonGen.Lib.OrderStatistic

namespace MoonGen

open List

/-- `quarts`, with `none` for the ones that are not a number. -/
structure Quarts (α : Type*) where
  first : Option α := none
  second : Option α := none
  third : Option α := none
  deriving DecidableEq

/-- The `histogram` of the Lua scripts. A cell is a value and how often it was counted,
and the fields behind `dirty` are what the last `calc` has set. -/
structure LuaHistogram (α : Type*) [LT α] where
  histo : OrderedMap α Nat := ⟨[], .nil⟩
  dirty : Bool := true
  sortedHisto : List (α × Nat) := []
  numSamples : Nat := 0
  minimum : Option α := none
  maximum : Option α := none
  quarts : Quarts α := {}
  deriving DecidableEq

namespace LuaHistogram

variable {α : Type*}

/-- The samples of the cells, one after another. -/
def expand (cells : List (α × Nat)) : List α := cells.flatMap fun p => List.replicate p.2 p.1

theorem expand_cons (k : α) (v : Nat) (cells : List (α × Nat)) :
    expand ((k, v) :: cells) = List.replicate v k ++ expand cells := rfl

theorem expand_append (front back : List (α × Nat)) : expand (front ++ back) = expand front ++ expand back :=
  flatMap_append

theorem length_expand (cells : List (α × Nat)) : (expand cells).length = (cells.map Prod.snd).sum := by
  rw [expand, length_flatMap]
  simp only [length_replicate]

variable {cells : List (α × Nat)}

theorem expand_perm {order : List (α × Nat)} (perm : order.Perm cells) : (expand order).Perm (expand cells) :=
  perm.flatMap_right _

theorem mem_expand {x : α} (member : x ∈ expand cells) : ∃ p ∈ cells, p.1 = x := by
  obtain ⟨p, cell, copy⟩ := mem_flatMap.mp member
  exact ⟨p, cell, (eq_of_mem_replicate copy).symm⟩

theorem head?_expand (positive : ∀ p ∈ cells, 0 < p.2) : (expand cells).head? = cells.head?.map Prod.fst := by
  cases cells with
  | nil => rfl
  | cons p cells =>
    obtain ⟨k, v⟩ := p
    obtain ⟨n, rfl⟩ := Nat.exists_eq_add_one.mpr (positive _ mem_cons_self)
    rfl

theorem getLast?_expand (positive : ∀ p ∈ cells, 0 < p.2) : (expand cells).getLast? = cells.getLast?.map Prod.fst := by
  rcases eq_nil_or_concat cells with rfl | ⟨front, p, rfl⟩
  · rfl
  · have counted := positive p (by simp)
    rw [concat_eq_append, expand_append, getLast?_append, getLast?_append]
    simp [expand, getLast?_replicate, Nat.ne_of_gt counted]

variable [LinearOrder α]

def create : LuaHistogram α := {}

/-- `update`, which ignores a missing value. -/
def update (h : LuaHistogram α) : Option α → LuaHistogram α
  | none => h
  | some k => { h with histo := h.histo.alter k fun v => v.getD 0 + 1, dirty := true }

/-- The loop over one cell, which ends early once the third quartile is found. -/
def quartCell (quartSamples : ℚ) (k : α) : Nat → Quarts α × Nat → Quarts α × Nat
  | 0, state => state
  | v + 1, (quarts, idx) =>
    if quarts.first.isNone ∧ (idx : ℚ) ≥ quartSamples then
      quartCell quartSamples k v ({ quarts with first := some k }, idx + 1)
    else if quarts.second.isNone ∧ (idx : ℚ) ≥ quartSamples * 2 then
      quartCell quartSamples k v ({ quarts with second := some k }, idx + 1)
    else if quarts.third.isNone ∧ (idx : ℚ) ≥ quartSamples * 3 then ({ quarts with third := some k }, idx)
    else quartCell quartSamples k v (quarts, idx + 1)

/-- The loop over all cells. -/
def findQuarts (numSamples : Nat) (cells : List (α × Nat)) : Quarts α :=
  (cells.foldl (fun state p => quartCell ((numSamples : ℚ) / 4) p.1 p.2 state) ({}, 0)).1

/-- `calc`. The order is the one in which `pairs` lists the entries of the table. -/
def calculate (h : LuaHistogram α) (order : List (α × Nat)) : LuaHistogram α :=
  let sortedHisto := order.mergeSort fun e1 e2 => decide (e1.1 ≤ e2.1)
  let numSamples := (order.map Prod.snd).sum
  if sortedHisto.length > 0 then
    { h with
      sortedHisto, numSamples
      maximum := sortedHisto.getLast?.map Prod.fst
      minimum := sortedHisto.head?.map Prod.fst
      quarts := findQuarts numSamples sortedHisto
      dirty := false }
  else { h with sortedHisto, numSamples, quarts := {}, dirty := false }

/-- What every query does first. -/
def refresh (h : LuaHistogram α) (order : List (α × Nat)) : LuaHistogram α := if h.dirty then h.calculate order else h

/-- `min`. -/
def min (h : LuaHistogram α) (order : List (α × Nat)) : Option α := (h.refresh order).minimum

/-- `max`. -/
def max (h : LuaHistogram α) (order : List (α × Nat)) : Option α := (h.refresh order).maximum

/-- `quartiles`. -/
def quartiles (h : LuaHistogram α) (order : List (α × Nat)) : Quarts α := (h.refresh order).quarts

/-- A histogram after updates with these samples, with queries in between. -/
inductive Filled : LuaHistogram α → List α → Prop
  | create : Filled create []
  | skip {h samples} : Filled h samples → Filled (h.update none) samples
  | update {h samples} (k : α) : Filled h samples → Filled (h.update (some k)) (samples ++ [k])
  | refresh {h samples} {order : List (α × Nat)} :
    Filled h samples → order.Perm h.histo.entries → Filled (h.refresh order) samples

variable {h : LuaHistogram α} {samples : List α} {order : List (α × Nat)}

theorem expand_sorted (sorted : cells.Pairwise fun a b => a.1 ≤ b.1) : (expand cells).Pairwise (· ≤ ·) := by
  induction cells with
  | nil => exact .nil
  | cons p cells ih =>
    obtain ⟨first, rest⟩ := pairwise_cons.mp sorted
    rw [expand_cons]
    refine pairwise_append.mpr ⟨pairwise_replicate.mpr (.inr le_rfl), ih rest, fun x left y right => ?_⟩
    obtain ⟨q, cell, rfl⟩ := mem_expand right
    rw [eq_of_mem_replicate left]
    exact first q cell

/-- An update adds one to a cell, or a cell with one. -/
theorem update_cases (h : LuaHistogram α) (k : α) : ∃ front back,
    (∃ v, h.histo.entries = front ++ (k, v) :: back ∧
      (h.update (some k)).histo.entries = front ++ (k, v + 1) :: back) ∨
    (h.histo.entries = front ++ back ∧ (h.update (some k)).histo.entries = front ++ (k, 1) :: back) := by
  obtain ⟨front, back, -, ⟨v, -, change⟩ | ⟨-, change⟩⟩ := h.histo.alter_cases k fun v => v.getD 0 + 1
  · exact ⟨front, back, .inl ⟨v, change⟩⟩
  · exact ⟨front, back, .inr change⟩

theorem expand_update (h : LuaHistogram α) (k : α) :
    (expand (h.update (some k)).histo.entries).Perm (k :: expand h.histo.entries) := by
  obtain ⟨front, back, ⟨v, old, new⟩ | ⟨old, new⟩⟩ := h.update_cases k
  · rw [new, old, expand_append, expand_append, expand_cons, expand_cons]
    exact perm_middle
  · rw [new, old, expand_append, expand_append, expand_cons]
    exact perm_middle

theorem entries_sorted (h : LuaHistogram α) : h.histo.entries.Pairwise fun a b => a.1 ≤ b.1 :=
  h.histo.sorted.imp le_of_lt

/-- Whatever order `pairs` takes, the sorted cells are the entries in the order of
their keys. -/
theorem mergeSort_order (perm : order.Perm h.histo.entries) :
    (order.mergeSort fun e1 e2 => decide (e1.1 ≤ e2.1)) = h.histo.entries := by
  have keys : (h.histo.entries.map Prod.fst).Nodup :=
    pairwise_map.mpr (h.histo.sorted.imp fun less => ne_of_lt less)
  exact mergeSort_key_eq_of_perm perm.symm h.entries_sorted fun a left b right => inj_on_of_nodup_map keys left right

/-- What `calc` leaves behind. -/
structure Calculated (h : LuaHistogram α) (samples : List α) : Prop where
  sortedHisto : h.sortedHisto = h.histo.entries
  numSamples : h.numSamples = samples.length
  quarts : h.quarts = findQuarts samples.length h.histo.entries
  minimum : samples ≠ [] → h.minimum = h.histo.entries.head?.map Prod.fst
  maximum : samples ≠ [] → h.maximum = h.histo.entries.getLast?.map Prod.fst

theorem calculate_spec (all : (expand h.histo.entries).Perm samples) (perm : order.Perm h.histo.entries) :
    Calculated (h.calculate order) samples ∧ (h.calculate order).histo = h.histo := by
  have count : (order.map Prod.snd).sum = samples.length := by
    rw [← length_expand]
    exact ((expand_perm perm).trans all).length_eq
  rw [calculate, mergeSort_order perm, count]
  split
  · exact ⟨⟨rfl, rfl, rfl, fun _ => rfl, fun _ => rfl⟩, rfl⟩
  · rename_i empty
    have bare : h.histo.entries = [] := eq_nil_of_length_eq_zero (by omega)
    have nothing : samples = [] := by
      rw [bare] at all
      exact all.nil_eq.symm
    refine ⟨⟨rfl, rfl, ?_, absurd nothing, absurd nothing⟩, rfl⟩
    dsimp only
    rw [bare]
    rfl

/-- The table always holds the samples, and what a query has left behind is right
until the next update. -/
theorem Filled.holds (filled : Filled h samples) :
    (expand h.histo.entries).Perm samples ∧ (h.dirty = false → Calculated h samples) := by
  induction filled with
  | create => exact ⟨.refl _, fun clean => Bool.noConfusion clean⟩
  | skip filled ih => exact ih
  | @update h samples k filled ih =>
    have added : (k :: samples).Perm (samples ++ [k]) := (perm_append_singleton k samples).symm
    exact ⟨((expand_update h k).trans (ih.1.cons k)).trans added, fun clean => Bool.noConfusion clean⟩
  | refresh filled perm ih =>
    obtain ⟨all, current⟩ := ih
    rw [LuaHistogram.refresh]
    split
    · obtain ⟨done, same⟩ := calculate_spec all perm
      exact ⟨same ▸ all, fun _ => done⟩
    · exact ⟨all, current⟩

theorem Filled.calculated (filled : Filled h samples) (perm : order.Perm h.histo.entries) :
    Calculated (h.refresh order) samples := by
  refine (filled.refresh perm).holds.2 ?_
  rw [LuaHistogram.refresh]
  split
  · rw [calculate]
    split <;> rfl
  · rename_i clean
    exact Bool.eq_false_iff.mpr clean

/-- The sorted cells of a query expand to the samples in their order. -/
theorem Filled.expand_sortedHisto (filled : Filled h samples) (perm : order.Perm h.histo.entries) :
    (expand (h.refresh order).sortedHisto).Perm samples ∧
      (h.refresh order).sortedHisto.Pairwise fun a b => a.1 ≤ b.1 := by
  rw [(filled.calculated perm).sortedHisto]
  exact ⟨(filled.refresh perm).holds.1, entries_sorted _⟩

/-- Cells in the order of their values expand to the sorted list of the samples. -/
theorem getElem?_expand (all : (expand cells).Perm samples)
    (sorted : cells.Pairwise fun a b => a.1 ≤ b.1) (i : Nat) : (expand cells)[i]? = orderStat samples i := by
  rw [orderStat, mergeSort_eq_of_perm all (expand_sorted sorted)]

theorem Filled.positive (filled : Filled h samples) : ∀ p ∈ h.histo.entries, 0 < p.2 := by
  induction filled with
  | create => exact fun p member => by cases member
  | skip filled ih => exact ih
  | @update h samples k filled ih =>
    obtain ⟨front, back, ⟨v, old, new⟩ | ⟨old, new⟩⟩ := h.update_cases k
    · rw [old, forall_mem_append, forall_mem_cons] at ih
      rw [new, forall_mem_append, forall_mem_cons]
      exact ⟨ih.1, Nat.succ_pos _, ih.2.2⟩
    · rw [old, forall_mem_append] at ih
      rw [new, forall_mem_append, forall_mem_cons]
      exact ⟨ih.1, Nat.one_pos, ih.2⟩
  | refresh filled perm ih =>
    rw [LuaHistogram.refresh]
    split
    · rw [(calculate_spec filled.holds.1 perm).2]
      exact ih
    · exact ih

/-- The first and the last of the samples in their order. -/
theorem Filled.min_max (filled : Filled h samples) (perm : order.Perm h.histo.entries) (nonempty : samples ≠ []) :
    h.min order = orderStat samples 0 ∧ h.max order = orderStat samples (samples.length - 1) := by
  have done := filled.calculated perm
  obtain ⟨all, sorted⟩ := filled.expand_sortedHisto perm
  have positive := (filled.refresh perm).positive
  rw [LuaHistogram.min, LuaHistogram.max, done.minimum nonempty, done.maximum nonempty, ← head?_expand positive,
    ← getLast?_expand positive]
  rw [done.sortedHisto] at all sorted
  rw [← getElem?_expand all sorted, ← getElem?_expand all sorted, ← all.length_eq, head?_eq_getElem?,
    getLast?_eq_getElem?]
  exact ⟨rfl, rfl⟩

theorem min_max_three : Filled (((create.update (some 5)).update (some 3)).update (some 8)) [5, 3, 8] ∧
    (((create.update (some 5)).update (some 3)).update (some 8)).min [(8, 1), (3, 1), (5, 1)] = orderStat [5, 3, 8] 0 ∧
    (((create.update (some 5)).update (some 3)).update (some 8)).max [(8, 1), (3, 1), (5, 1)] =
      orderStat [5, 3, 8] 2 := by
  have filled := ((Filled.create.update 5).update 3).update 8
  have perm : [(8, 1), (3, 1), (5, 1)].Perm [(3, 1), (5, 1), (8, 1)] := by decide
  exact ⟨filled, filled.min_max perm (by decide)⟩

end LuaHistogram

end MoonGen
