import Mathlib.Data.List.DropRight

namespace LuaVarargs

open List

variable {V : Type*}

/-- The entries of the table that the constructor makes of some values from an index on. A
value that is `nil` makes no entry. -/
def entriesFrom : Nat → List (Option V) → List (Nat × V)
  | _, [] => []
  | k, none :: values => entriesFrom (k + 1) values
  | k, some v :: values => (k, v) :: entriesFrom (k + 1) values

/-- The table `{...}`. -/
def table (values : List (Option V)) : List (Nat × V) := entriesFrom 1 values

/-- The function `table.maxn`: the last index there is an entry for. -/
def maxn (entries : List (Nat × V)) : Nat := entries.foldr (fun entry last => max entry.1 last) 0

/-- The values at the first indices. -/
def unpack (n : Nat) (entries : List (Nat × V)) : List (Option V) := (List.range n).map fun i => entries.lookup (i + 1)

theorem entriesFrom_append (k : Nat) (values more : List (Option V)) :
    entriesFrom k (values ++ more) = entriesFrom k values ++ entriesFrom (k + values.length) more := by
  induction values generalizing k with
  | nil => rfl
  | cons v values ih =>
    cases v with
    | none => rw [cons_append, entriesFrom, entriesFrom, ih, length_cons, Nat.add_right_comm, Nat.add_assoc]
    | some v =>
      rw [cons_append, entriesFrom, entriesFrom, ih, length_cons, Nat.add_right_comm, Nat.add_assoc, cons_append]

theorem le_of_mem_entriesFrom {k : Nat} {values : List (Option V)} {entry : Nat × V}
    (member : entry ∈ entriesFrom k values) : k ≤ entry.1 := by
  induction values generalizing k with
  | nil => cases member
  | cons v values ih =>
    cases v with
    | none => exact (Nat.le_succ k).trans (ih member)
    | some v =>
      rcases mem_cons.mp member with rfl | later
      · exact le_refl k
      · exact (Nat.le_succ k).trans (ih later)

theorem lookup_entriesFrom (k : Nat) (values : List (Option V)) (i : Nat) :
    (entriesFrom k values).lookup (k + i) = values[i]?.join := by
  induction values generalizing k i with
  | nil => rfl
  | cons v values ih =>
    cases i with
    | zero =>
      cases v with
      | none =>
        rw [entriesFrom, Nat.add_zero, getElem?_cons_zero, Option.join_some, lookup_eq_none_iff]
        intro entry member
        have later := le_of_mem_entriesFrom member
        exact bne_iff_ne.mpr (by omega)
      | some v => rw [entriesFrom, Nat.add_zero, lookup_cons_self, getElem?_cons_zero, Option.join_some]
    | succ i =>
      rw [getElem?_cons_succ, ← ih (k + 1) i, show k + (i + 1) = k + 1 + i by omega]
      cases v with
      | none => rfl
      | some v => rw [entriesFrom, lookup_cons, beq_eq_false_iff_ne.mpr (by omega)]

theorem maxn_nil : maxn ([] : List (Nat × V)) = 0 := rfl

theorem maxn_singleton (entry : Nat × V) : maxn [entry] = entry.1 := Nat.max_zero _

theorem maxn_append (entries more : List (Nat × V)) : maxn (entries ++ more) = max (maxn entries) (maxn more) := by
  induction entries with
  | nil => rw [nil_append, maxn_nil, Nat.zero_max]
  | cons entry entries ih =>
    have split : maxn (entry :: (entries ++ more)) = max entry.1 (maxn (entries ++ more)) := rfl
    rw [cons_append, split, ih, ← Nat.max_assoc]
    rfl

/-- The last index is how many values are left without the `nil`s at their end. -/
theorem maxn_table (values : List (Option V)) : maxn (table values) = (values.rdropWhile Option.isNone).length := by
  induction values using List.reverseRecOn with
  | nil => rfl
  | append_singleton values v ih =>
    rw [table, entriesFrom_append, maxn_append]
    rw [table] at ih
    cases v with
    | none => rw [rdropWhile_concat_pos _ _ _ rfl, ← ih, entriesFrom, entriesFrom, maxn_nil, Nat.max_zero]
    | some v =>
      have shorter : (values.rdropWhile Option.isNone).length ≤ values.length := (List.rdropWhile_prefix _ _).length_le
      rw [rdropWhile_concat_neg _ _ _ Bool.false_ne_true, ih, entriesFrom, entriesFrom, maxn_singleton,
        length_append, length_singleton]
      omega

/-- What comes out of the table are the values without the `nil`s at their end. -/
theorem unpack_table (values : List (Option V)) :
    unpack (maxn (table values)) (table values) = values.rdropWhile Option.isNone := by
  obtain ⟨dropped, whole⟩ := List.rdropWhile_prefix Option.isNone values
  rw [maxn_table]
  refine ext_getElem? fun i => ?_
  rw [unpack, getElem?_map]
  rcases Nat.lt_or_ge i (values.rdropWhile Option.isNone).length with inside | beyond
  · have there : values[i]? = (values.rdropWhile Option.isNone)[i]? := by
      rw [← getElem?_append_left inside, whole]
    rw [getElem?_range inside, Option.map_some, Nat.add_comm, table, lookup_entriesFrom, there,
      getElem?_eq_getElem inside, Option.join_some]
  · rw [getElem?_eq_none (by simpa using beyond), getElem?_eq_none beyond, Option.map_none]

end LuaVarargs
