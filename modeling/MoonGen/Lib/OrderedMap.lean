import Mathlib.Algebra.GroupWithZero.Nat
import Mathlib.Algebra.BigOperators.Group.List.Basic
import Mathlib.Algebra.Order.Group.Nat

/-- The entries of a map in the order of their keys. -/
structure OrderedMap (K V : Type*) [LT K] where
  entries : List (K × V)
  sorted : entries.Pairwise fun a b => a.1 < b.1
  deriving DecidableEq

namespace OrderedMap

open List

variable {K V : Type*} [DecidableEq K]
variable {entries : List (K × V)}

theorem lookup_of_ne {key : K} (others : ∀ e ∈ entries, e.1 ≠ key) : entries.lookup key = none := by
  rw [lookup_eq_none_iff]
  exact fun e member => bne_iff_ne.mpr (others e member).symm

/-- An entry between others that have not its key. -/
theorem lookup_middle {front : List (K × V)} (back : List (K × V)) {key : K} (k : K) (v : V)
    (before : ∀ e ∈ front, e.1 ≠ key) :
    (front ++ (key, v) :: back).lookup k = if k = key then some v else (front ++ back).lookup k := by
  rw [lookup_append, lookup_cons, lookup_append]
  by_cases same : k = key
  · rw [same, lookup_of_ne before]
    simp
  · rw [beq_eq_false_iff_ne.mpr same, if_neg same]

variable [LT K]

def empty : OrderedMap K V := ⟨[], .nil⟩

def get? (m : OrderedMap K V) (key : K) : Option V := m.entries.lookup key

theorem weight_le_sum (m : OrderedMap K V) (key : K) (weight : V → Nat) :
    ((m.get? key).map weight).getD 0 ≤ (m.entries.map fun e => weight e.2).sum := by
  cases found : m.get? key with
  | none => exact Nat.zero_le _
  | some v =>
    obtain ⟨front, back, entries, -⟩ := lookup_eq_some_iff.mp found
    rw [entries]
    simp only [Option.map_some, Option.getD_some, map_append, map_cons, sum_append, sum_cons]
    omega

variable [DecidableLT K]

/-- Changes the value of a key, or inserts one. -/
def alterEntries (key : K) (f : Option V → V) : List (K × V) → List (K × V)
  | [] => [(key, f none)]
  | (k, v) :: entries =>
    if key < k then (key, f none) :: (k, v) :: entries
    else if key = k then (k, f (some v)) :: entries
    else (k, v) :: alterEntries key f entries

theorem key_mem_alterEntries {key : K} {f : Option V → V} {e : K × V}
    (member : e ∈ alterEntries key f entries) : e.1 = key ∨ ∃ d ∈ entries, d.1 = e.1 := by
  induction entries with
  | nil => exact .inl (by rw [mem_singleton.mp member])
  | cons d entries ih =>
    obtain ⟨k, v⟩ := d
    rw [alterEntries] at member
    split at member
    · rcases mem_cons.mp member with rfl | old
      · exact .inl rfl
      · exact .inr ⟨e, old, rfl⟩
    · split at member
      · rename_i same
        rcases mem_cons.mp member with rfl | old
        · exact .inl same.symm
        · exact .inr ⟨e, mem_cons_of_mem _ old, rfl⟩
      · rcases mem_cons.mp member with rfl | rest
        · exact .inr ⟨_, mem_cons_self, rfl⟩
        · exact (ih rest).imp_right fun ⟨d, old, same⟩ => ⟨d, mem_cons_of_mem _ old, same⟩

variable [LE K] [Std.IsLinearOrder K] [Std.LawfulOrderLT K]

theorem alterEntries_sorted (key : K) (f : Option V → V) (sorted : entries.Pairwise fun a b => a.1 < b.1) :
    (alterEntries key f entries).Pairwise fun a b => a.1 < b.1 := by
  induction entries with
  | nil => exact pairwise_singleton _ _
  | cons d entries ih =>
    obtain ⟨k, v⟩ := d
    obtain ⟨first, rest⟩ := pairwise_cons.mp sorted
    rw [alterEntries]
    split
    · rename_i before
      refine pairwise_cons.mpr ⟨fun e member => ?_, sorted⟩
      rcases mem_cons.mp member with rfl | later
      · exact before
      · exact Std.lt_trans before (first e later)
    · rename_i notBefore
      split
      · exact pairwise_cons.mpr ⟨first, rest⟩
      · rename_i other
        refine pairwise_cons.mpr ⟨fun e member => ?_, ih rest⟩
        rcases key_mem_alterEntries member with new | ⟨d, old, same⟩
        · rw [new]
          exact Std.lt_of_le_of_ne (Std.not_lt.mp notBefore) (Ne.symm other)
        · exact same ▸ first d old

def alter (m : OrderedMap K V) (key : K) (f : Option V → V) : OrderedMap K V :=
  ⟨alterEntries key f m.entries, alterEntries_sorted key f m.sorted⟩

/-- What a change does to the entries: one of them gets another value, or one is
added between those before and those behind its key. -/
theorem alterEntries_cases (key : K) (f : Option V → V) (sorted : entries.Pairwise fun a b => a.1 < b.1) :
    ∃ front back, (∀ e ∈ front, e.1 ≠ key) ∧ (∀ e ∈ back, e.1 ≠ key) ∧
      ((∃ v, entries = front ++ (key, v) :: back ∧ alterEntries key f entries = front ++ (key, f (some v)) :: back) ∨
        (entries = front ++ back ∧ alterEntries key f entries = front ++ (key, f none) :: back)) := by
  induction entries with
  | nil => exact ⟨[], [], by simp, by simp, .inr ⟨rfl, rfl⟩⟩
  | cons d entries ih =>
    obtain ⟨k, v⟩ := d
    obtain ⟨first, rest⟩ := pairwise_cons.mp sorted
    rw [alterEntries]
    split
    · rename_i before
      refine ⟨[], (k, v) :: entries, by simp, fun e member => ?_, .inr ⟨rfl, rfl⟩⟩
      rcases mem_cons.mp member with rfl | later
      · exact (Std.ne_of_lt before).symm
      · exact (Std.ne_of_lt (Std.lt_trans before (first e later))).symm
    · split
      · rename_i same
        subst same
        exact ⟨[], entries, by simp, fun e member => (Std.ne_of_lt (first e member)).symm, .inl ⟨v, rfl, rfl⟩⟩
      · rename_i other
        obtain ⟨front, back, before, behind, change⟩ := ih rest
        refine ⟨(k, v) :: front, back, fun e member => ?_, behind, ?_⟩
        · rcases mem_cons.mp member with rfl | later
          · exact Ne.symm other
          · exact before e later
        · rcases change with ⟨w, old, new⟩ | ⟨old, new⟩
          · exact .inl ⟨w, by rw [old]; rfl, by rw [new]; rfl⟩
          · exact .inr ⟨by rw [old]; rfl, by rw [new]; rfl⟩

variable (m : OrderedMap K V) (key : K) (f : Option V → V)

theorem alter_cases : ∃ front back, (∀ e ∈ front, e.1 ≠ key) ∧
    ((∃ v, m.get? key = some v ∧ m.entries = front ++ (key, v) :: back ∧
        (m.alter key f).entries = front ++ (key, f (some v)) :: back) ∨
      (m.get? key = none ∧ m.entries = front ++ back ∧ (m.alter key f).entries = front ++ (key, f none) :: back)) := by
  obtain ⟨front, back, before, behind, ⟨v, old, new⟩ | ⟨old, new⟩⟩ := alterEntries_cases key f m.sorted
  · refine ⟨front, back, before, .inl ⟨v, ?_, old, new⟩⟩
    rw [get?, old, lookup_middle back key _ before, if_pos rfl]
  · refine ⟨front, back, before, .inr ⟨?_, old, new⟩⟩
    rw [get?, old]
    exact lookup_of_ne fun e member => (mem_append.mp member).elim (before e) (behind e)

theorem get?_alter (k : K) : (m.alter key f).get? k = if k = key then some (f (m.get? key)) else m.get? k := by
  obtain ⟨front, back, before, ⟨v, held, old, new⟩ | ⟨absent, old, new⟩⟩ := m.alter_cases key f
  · rw [held, get?, get?, new, old, lookup_middle back k _ before, lookup_middle back k _ before]
    split <;> rfl
  · rw [absent, get?, get?, new, old, lookup_middle back k _ before]

/-- What a change does to a sum over the entries. -/
theorem sum_alter (weight : V → Nat) :
    ((m.alter key f).entries.map fun e => weight e.2).sum + ((m.get? key).map weight).getD 0 =
      (m.entries.map fun e => weight e.2).sum + weight (f (m.get? key)) := by
  obtain ⟨front, back, -, ⟨v, held, old, new⟩ | ⟨absent, old, new⟩⟩ := m.alter_cases key f
  · rw [held, new, old]
    simp only [map_append, map_cons, sum_append, sum_cons, Option.map_some, Option.getD_some]
    omega
  · rw [absent, new, old]
    simp only [map_append, map_cons, sum_append, sum_cons, Option.map_none, Option.getD_none]
    omega

end OrderedMap
