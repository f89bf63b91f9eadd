import Mathlib.Data.List.Nodup

namespace LuaTable

open List

variable {K V : Type*}

/-- A table as its value for each key, where `none` is `nil`. -/
abbrev Table (K V : Type*) := K → Option V

/-- The loop `pairs` over a table visits each of its entries once, in an order of its own. -/
def Pairs (t : Table K V) (order : List (K × V)) : Prop :=
  (order.map Prod.fst).Nodup ∧ ∀ k v, (k, v) ∈ order ↔ t k = some v

theorem pairs_empty : Pairs (fun _ : K => (none : Option V)) [] := ⟨nodup_nil, fun _ _ => ⟨nofun, nofun⟩⟩

variable [DecidableEq K]

def assign (t : Table K V) (k : K) (v : Option V) : Table K V := fun j => if j = k then v else t j

theorem assign_self (t : Table K V) (k : K) (v : Option V) : assign t k v k = v := if_pos rfl

theorem assign_of_ne (t : Table K V) {j k : K} (v : Option V) (other : j ≠ k) : assign t k v j = t j := if_neg other

variable {order : List (K × V)}

/-- A new entry may be visited first. -/
theorem Pairs.assign {t : Table K V} (pairs : Pairs t order) {k : K} {v : V}
    (absent : t k = none) : Pairs (assign t k (some v)) ((k, v) :: order) := by
  refine ⟨?_, fun j w => ?_⟩
  · rw [map_cons, nodup_cons]
    refine ⟨fun member => ?_, pairs.1⟩
    obtain ⟨⟨_, w⟩, found, rfl⟩ := mem_map.mp member
    rw [(pairs.2 _ w).mp found] at absent
    cases absent
  · rw [mem_cons, pairs.2 j w]
    by_cases same : j = k
    · subst same
      rw [assign_self, absent]
      simp [eq_comm]
    · rw [assign_of_ne t _ same]
      simp [same]

/-- One turn of a loop that takes over the entries for which there is room. -/
def take (free : K → V → Option V → Bool) (t : Table K V) (entry : K × V) : Table K V :=
  if free entry.1 entry.2 (t entry.1) then assign t entry.1 (some entry.2) else t
section
variable (free : K → V → Option V → Bool)

theorem take_of_ne (t : Table K V) {entry : K × V} {k : K} (other : k ≠ entry.1) : take free t entry k = t k := by
  rw [take]
  split
  · exact assign_of_ne t _ other
  · rfl

/-- The turns for other keys change nothing for a key. -/
theorem foldl_take_of_not_mem (t : Table K V) {k : K}
    (absent : k ∉ order.map Prod.fst) : order.foldl (take free) t k = t k := by
  induction order generalizing t with
  | nil => rfl
  | cons entry order ih =>
    rw [map_cons, mem_cons, not_or] at absent
    rw [foldl_cons, ih (take free t entry) absent.2, take_of_ne free t absent.1]

/-- What is there for a key after the loop depends on the two tables at that key only. -/
theorem foldl_take_of_mem (t : Table K V) {k : K} {v : V}
    (distinct : (order.map Prod.fst).Nodup) (member : (k, v) ∈ order) :
    order.foldl (take free) t k = if free k v (t k) then some v else t k := by
  induction order generalizing t with
  | nil => cases member
  | cons entry order ih =>
    rw [map_cons, nodup_cons] at distinct
    rw [foldl_cons]
    rcases mem_cons.mp member with rfl | later
    · rw [foldl_take_of_not_mem free _ distinct.1, take]
      split
      · exact assign_self t k (some v)
      · rfl
    · have other : k ≠ entry.1 := by
        rintro rfl
        exact distinct.1 (mem_map.mpr ⟨_, later, rfl⟩)
      rw [ih (take free t entry) distinct.2 later, take_of_ne free t other]

/-- The loop over all entries of a table. -/
theorem foldl_take (t : Table K V) {other : Table K V}
    (pairs : Pairs other order) (k : K) : order.foldl (take free) t k = match other k with
      | none => t k
      | some v => if free k v (t k) then some v else t k := by
  cases entry : other k with
  | none =>
    refine foldl_take_of_not_mem free t fun member => ?_
    obtain ⟨⟨_, v⟩, found, rfl⟩ := mem_map.mp member
    rw [(pairs.2 _ v).mp found] at entry
    cases entry
  | some v => exact foldl_take_of_mem free t pairs.1 ((pairs.2 k v).mpr entry)
end

end LuaTable
