import Mathlib.Data.Int.CardIntervalMod
import Mathlib.Logic.Function.Iterate

namespace MoonGen

open Nat

/-- A counter that goes up from `base` and starts again instead of reaching `base + n`. -/
def cycleNext (base n q : Nat) : Nat := if q + 1 = base + n then base else q + 1

theorem cycleNext_iterate {n : Nat} (positive : 0 < n) (base k : Nat) :
    (cycleNext base n)^[k] base = base + k % n := by
  induction k with
  | zero => rw [Function.iterate_zero_apply, zero_mod, Nat.add_zero]
  | succ k ih =>
    have below := mod_lt k positive
    have after : (k + 1) % n = (k % n + 1) % n := (mod_add_mod k n 1).symm
    rw [Function.iterate_succ_apply', ih, cycleNext, after]
    by_cases last : k % n + 1 = n
    · rw [if_pos (by omega), last, mod_self, Nat.add_zero]
    · rw [if_neg (by omega), mod_eq_of_lt (show k % n + 1 < n by omega), Nat.add_assoc]

/-- Each residue comes up equally often among the first numbers, but for one. -/
theorem count_mod_le_count_mod_add_one {n r s : Nat} (r_lt : r < n) (s_lt : s < n) (size : Nat) :
    Nat.count (fun k => k % n = r) size ≤ Nat.count (fun k => k % n = s) size + 1 := by
  have residue : ∀ t, t < n → Nat.count (fun k => k % n = t) size = size / n + if t < size % n then 1 else 0 := by
    intro t t_lt
    have count := count_modEq_card size (zero_lt_of_lt r_lt) t
    simpa only [Nat.ModEq, mod_eq_of_lt t_lt] using count
  rw [residue r r_lt, residue s s_lt]
  split <;> split <;> omega

/-- A group of the redirection table. Bit `j` of the mask asks for entry `j` to be written. -/
structure RetaEntry64 where
  mask : BitVec 64
  reta : Vector UInt16 64

inductive RssError
  | assertion
  | fatal (message : String)
deriving DecidableEq, Repr

/-- The inner loop: the entries after `j` rounds, and the queue for the next one. -/
def fillReta (n baseQueue queue : Nat) : (j : Nat) → Vector UInt16 j × Nat
  | 0 => (#v[], queue)
  | j + 1 =>
    let (reta, queue) := fillReta n baseQueue queue j
    (reta.push (UInt16.ofNat queue), cycleNext baseQueue n queue)

/-- The outer loop. The queue goes on from one group to the next. -/
def fillGroups (n baseQueue : Nat) : (i : Nat) → Vector RetaEntry64 i × Nat
  | 0 => (#v[], baseQueue)
  | i + 1 =>
    let (entries, queue) := fillGroups n baseQueue i
    let (reta, queue) := fillReta n baseQueue queue 64
    (entries.push { mask := 0xFFFFFFFFFFFFFFFF, reta }, queue)

/-- The driver gets the groups and the size of the table, and returns the text of an
error if it does not take them. -/
def setRssQueues (retaUpdate : Array RetaEntry64 → Nat → Option String) (retaSize n : Nat)
    (baseQueue : Option Nat) : Except RssError (Array RetaEntry64) :=
  let baseQueue := baseQueue.getD 0
  if n = 0 then .error .assertion
  else if retaSize % 64 ≠ 0 then .error (.fatal "NYI: number of RETA entries is not a multiple of 64")
  else
    let entries := (fillGroups n baseQueue (retaSize / 64)).1.toArray
    match retaUpdate entries retaSize with
    | some err => .error (.fatal ("Error setting up RETA table: " ++ err))
    | none => .ok entries

/-- What is written to an entry of the table, counted over all groups. -/
def retaWritten (entries : Array RetaEntry64) (k : Nat) : Option UInt16 :=
  entries[k / 64]?.bind fun group => if group.mask.getLsbD (k % 64) then group.reta[k % 64]? else none

/-- How many entries of the table point to a queue. -/
def rssLoad (entries : Array RetaEntry64) (retaSize queue : Nat) : Nat :=
  Nat.count (fun k => (retaWritten entries k).map UInt16.toNat = some queue) retaSize

theorem fillReta_eq (n baseQueue queue j : Nat) :
    (fillReta n baseQueue queue j).2 = (cycleNext baseQueue n)^[j] queue ∧
      ∀ k (inside : k < j), (fillReta n baseQueue queue j).1[k] = UInt16.ofNat ((cycleNext baseQueue n)^[k] queue) := by
  induction j with
  | zero => exact ⟨rfl, fun k inside => absurd inside (Nat.not_lt_zero k)⟩
  | succ j ih =>
    obtain ⟨last, entries⟩ := ih
    constructor
    · rw [Function.iterate_succ_apply', ← last]
      rfl
    · intro k inside
      simp only [fillReta, Vector.getElem_push, last]
      split
      · exact entries k _
      · rw [show k = j by omega]

/-- No group starts again at the base queue. -/
theorem fillGroups_eq (n baseQueue i : Nat) :
    (fillGroups n baseQueue i).2 = (cycleNext baseQueue n)^[64 * i] baseQueue ∧
      ∀ g (inside : g < i), (fillGroups n baseQueue i).1[g].mask = 0xFFFFFFFFFFFFFFFF ∧
        ∀ j (within : j < 64), (fillGroups n baseQueue i).1[g].reta[j] =
          UInt16.ofNat ((cycleNext baseQueue n)^[64 * g + j] baseQueue) := by
  induction i with
  | zero => exact ⟨rfl, fun g inside => absurd inside (Nat.not_lt_zero g)⟩
  | succ i ih =>
    obtain ⟨last, entries⟩ := ih
    constructor
    · have inner := (fillReta_eq n baseQueue (fillGroups n baseQueue i).2 64).1
      rw [last, ← Function.iterate_add_apply] at inner
      rw [show 64 * (i + 1) = 64 + 64 * i by omega, ← inner, ← last]
      rfl
    · intro g inside
      simp only [fillGroups, Vector.getElem_push]
      split
      · exact entries g _
      · refine ⟨rfl, fun j within => ?_⟩
        rw [(fillReta_eq n baseQueue _ 64).2 j within, last, ← Function.iterate_add_apply,
          show j + 64 * i = 64 * g + j by omega]

theorem retaWritten_fillGroups {n baseQueue groups k : Nat} (positive : 0 < n) (small : baseQueue + n ≤ 2 ^ 16)
    (inside : k < 64 * groups) :
    (retaWritten (fillGroups n baseQueue groups).1.toArray k).map UInt16.toNat = some (baseQueue + k % n) := by
  have group : k / 64 < groups := by omega
  have within : k % 64 < 64 := mod_lt k (by omega)
  have below := mod_lt k positive
  obtain ⟨mask, reta⟩ := (fillGroups_eq n baseQueue groups).2 (k / 64) group
  have bit : ∀ j < 64, (0xFFFFFFFFFFFFFFFF : BitVec 64).getLsbD j = true := by decide
  have value : (UInt16.ofNat (baseQueue + k % n)).toNat = baseQueue + k % n :=
    UInt16.toNat_ofNat_of_lt' (by simp only [UInt16.size]; omega)
  rw [retaWritten, Vector.getElem?_toArray, Vector.getElem?_eq_getElem group, Option.bind_some, mask,
    if_pos (bit _ within), Vector.getElem?_eq_getElem within, reta _ within, div_add_mod,
    cycleNext_iterate positive, Option.map_some, value]

theorem rssLoad_fillGroups {n baseQueue groups queue : Nat} (positive : 0 < n) (small : baseQueue + n ≤ 2 ^ 16)
    (least : baseQueue ≤ queue) :
    rssLoad (fillGroups n baseQueue groups).1.toArray (64 * groups) queue =
      Nat.count (fun k => k % n = queue - baseQueue) (64 * groups) := by
  have same : ∀ k < 64 * groups,
      (retaWritten (fillGroups n baseQueue groups).1.toArray k).map UInt16.toNat = some queue ↔
        k % n = queue - baseQueue := by
    intro k inside
    rw [retaWritten_fillGroups positive small inside, Option.some_inj]
    omega
  exact le_antisymm (count_mono_left fun k inside => (same k inside).mp)
    (count_mono_left fun k inside => (same k inside).mpr)

/-- Every entry of the table points to a queue in turn, from the base queue on and around,
so that no queue gets more than one entry more than another. -/
theorem setRssQueues_roundRobin (retaUpdate : Array RetaEntry64 → Nat → Option String) (retaSize n : Nat)
    (baseQueue : Option Nat) (b : Nat) (base : b = baseQueue.getD 0) (positive : 1 ≤ n) (groups : 64 ∣ retaSize)
    (small : b + n ≤ 2 ^ 16) :
    ∃ entries : Array RetaEntry64,
      setRssQueues retaUpdate retaSize n baseQueue =
        (match retaUpdate entries retaSize with
        | some err => .error (.fatal ("Error setting up RETA table: " ++ err))
        | none => .ok entries) ∧
      entries.size = retaSize / 64 ∧
      (∀ k < retaSize, (retaWritten entries k).map UInt16.toNat = some (b + k % n)) ∧
      (∀ k < retaSize, ∃ queue ∈ retaWritten entries k, b ≤ queue.toNat ∧ queue.toNat ≤ b + n - 1) ∧
      ∀ q, b ≤ q → q < b + n → ∀ q', b ≤ q' → q' < b + n →
        rssLoad entries retaSize q ≤ rssLoad entries retaSize q' + 1 := by
  subst base
  obtain ⟨number, rfl⟩ := groups
  have written : ∀ k < 64 * number, (retaWritten (fillGroups n (baseQueue.getD 0) number).1.toArray k).map
      UInt16.toNat = some (baseQueue.getD 0 + k % n) := fun k => retaWritten_fillGroups positive small
  have whole : 64 * number / 64 = number := Nat.mul_div_cancel_left number (by decide)
  refine ⟨(fillGroups n (baseQueue.getD 0) number).1.toArray, ?_, ?_, written, ?_, ?_⟩
  · rw [setRssQueues, if_neg (by omega), if_neg (by omega), whole]
  · rw [Vector.size_toArray, whole]
  · intro k inside
    obtain ⟨queue, found, value⟩ := Option.map_eq_some_iff.mp (written k inside)
    have := mod_lt k positive
    exact ⟨queue, found, by omega, by omega⟩
  · intro q low high q' low' high'
    rw [rssLoad_fillGroups positive small low, rssLoad_fillGroups positive small low']
    exact count_mod_le_count_mod_add_one (by omega) (by omega) _

theorem setRssQueues_roundRobin_three :
    ∃ entries : Array RetaEntry64,
      setRssQueues (fun _ _ => none) 128 3 (some 5) = .ok entries ∧ entries.size = 2 ∧
      (∀ k < 128, (retaWritten entries k).map UInt16.toNat = some (5 + k % 3)) ∧
      (∀ k < 128, ∃ queue ∈ retaWritten entries k, 5 ≤ queue.toNat ∧ queue.toNat ≤ 7) ∧
      ∀ q, 5 ≤ q → q < 8 → ∀ q', 5 ≤ q' → q' < 8 → rssLoad entries 128 q ≤ rssLoad entries 128 q' + 1 :=
  setRssQueues_roundRobin (fun _ _ => none) 128 3 (some 5) 5 rfl (by decide) (by decide) (by decide)

end MoonGen
