import Mathlib.Data.List.AList
import Mathlib.Data.List.Induction
import Mathlib.Tactic.Ring

namespace MoonGen

open List

variable {K : Type} [DecidableEq K]

/-- The concurrent map in the hands of one thread: timestamps under distinct keys,
listed as an iterator visits them. -/
abbrev TsMap (K : Type) := AList fun _ : K => UInt64

namespace TsMap

def size (m : TsMap K) : Nat := m.entries.length

/-- The loop of `_clean` over the entries still to be visited. The keys in `deque`
are erased in every round. -/
def cleanLoop (thresh : UInt64) : List (Sigma fun _ : K => UInt64) → List K → TsMap K → Nat → TsMap K × Nat
  | [], _, m, ctr => (m, ctr)
  | entry :: entries, deque, m, ctr =>
    let deque := if entry.2 < thresh then entry.1 :: deque else deque
    cleanLoop thresh entries deque (deque.foldl (fun m key => m.erase key) m) (ctr + deque.length)

/-- `_clean`: the value returned and the map. The counter is an `int`, which must
not overflow. -/
def clean (m : TsMap K) (thresh : UInt64) : Option (UInt32 × TsMap K) :=
  let (after, ctr) := cleanLoop thresh m.entries [] m 0
  if ctr < 2 ^ 31 then some (.ofNat ctr, after) else none

theorem size_insert (m : TsMap K) (key : K) (ts : UInt64) :
    size (m.insert key ts) = if key ∈ m then m.size else m.size + 1 := by
  have length : size (m.insert key ts) = (m.insert key ts).keys.length := (length_map _).symm
  have old : m.size = m.keys.length := (length_map _).symm
  rw [length, old, AList.keys_insert, length_cons]
  split
  · rename_i member
    have positive := length_pos_of_mem (AList.mem_keys.mp member)
    rw [length_erase_of_mem (AList.mem_keys.mp member)]
    omega
  · rename_i other
    rw [erase_of_not_mem fun member => other (AList.mem_keys.mpr member)]

theorem size_erase {m : TsMap K} {key : K} (member : key ∈ m) : size (m.erase key) + 1 = m.size := by
  have length : size (m.erase key) = (m.erase key).keys.length := (length_map _).symm
  have old : m.size = m.keys.length := (length_map _).symm
  have positive := length_pos_of_mem (AList.mem_keys.mp member)
  rw [length, old, AList.keys_erase, length_erase_of_mem (AList.mem_keys.mp member)]
  omega

theorem cleanLoop_zero (entries : List (Sigma fun _ : K => UInt64)) (m : TsMap K) (ctr : Nat) :
    cleanLoop 0 entries [] m ctr = (m, ctr) := by
  induction entries with
  | nil => rfl
  | cons entry entries ih =>
    have fresh : ¬entry.2 < 0 := UInt64.not_lt_zero
    rw [cleanLoop, if_neg fresh]
    exact ih

/-- No timestamp is below zero, so that nothing is cleaned then. -/
theorem clean_zero (m : TsMap K) : m.clean 0 = some (0, m) := by
  rw [clean, cleanLoop_zero]
  rfl

/-- The entries of a list that are older than a threshold. -/
def stale (thresh : UInt64) (entries : List (Sigma fun _ : K => UInt64)) : List (Sigma fun _ : K => UInt64) :=
  entries.filter fun entry => entry.2 < thresh

/-- How often the keys of the stale entries are erased: once in the round of the
entry and once in each round that follows. -/
def erasures (thresh : UInt64) : List (Sigma fun _ : K => UInt64) → Nat
  | [] => 0
  | entry :: entries => (if entry.2 < thresh then entries.length + 1 else 0) + erasures thresh entries

theorem lookup_foldl_erase (keys : List K) (m : TsMap K) (key : K) :
    (keys.foldl (fun m key => m.erase key) m).lookup key = if key ∈ keys then none else m.lookup key := by
  induction keys generalizing m with
  | nil => simp
  | cons first keys ih =>
    rw [foldl_cons, ih]
    by_cases later : key ∈ keys
    · simp [later]
    · by_cases same : key = first
      · subst same
        simp [later]
      · simp [later, same, AList.lookup_erase_ne same]

/-- A key is gone when it was in the deque already, or its entry is stale. -/
theorem lookup_cleanLoop (thresh : UInt64) (entries : List (Sigma fun _ : K => UInt64)) (deque : List K) (m : TsMap K)
    (ctr : Nat) (key : K) (erased : key ∈ deque → m.lookup key = none) :
    (cleanLoop thresh entries deque m ctr).1.lookup key =
      if key ∈ (stale thresh entries).keys then none else m.lookup key := by
  induction entries generalizing deque m ctr with
  | nil => simp [cleanLoop, stale]
  | cons entry entries ih =>
    rw [cleanLoop, ih _ _ _ fun old => by rw [lookup_foldl_erase, if_pos old], lookup_foldl_erase]
    by_cases old : entry.2 < thresh
    · have keys : (stale thresh (entry :: entries)).keys = entry.1 :: (stale thresh entries).keys := by
        simp [stale, old]
      by_cases inside : key ∈ deque
      · simp [old, keys, inside, erased inside]
      · by_cases same : key = entry.1 <;> simp [old, keys, inside, same]
    · have keys : (stale thresh (entry :: entries)).keys = (stale thresh entries).keys := by
        simp [stale, old]
      by_cases inside : key ∈ deque
      · simp [old, keys, inside, erased inside]
      · simp [old, keys, inside]

theorem ctr_cleanLoop (thresh : UInt64) (entries : List (Sigma fun _ : K => UInt64)) (deque : List K) (m : TsMap K)
    (ctr : Nat) :
    (cleanLoop thresh entries deque m ctr).2 = ctr + deque.length * entries.length + erasures thresh entries := by
  induction entries generalizing deque m ctr with
  | nil => simp [cleanLoop, erasures]
  | cons entry entries ih =>
    rw [cleanLoop, ih, erasures, length_cons]
    split
    · rw [length_cons]
      ring
    · ring

omit [DecidableEq K] in
/-- The keys are erased once each exactly when at most the last entry is stale. -/
theorem erasures_eq_iff (thresh : UInt64) (entries : List (Sigma fun _ : K => UInt64)) :
    (stale thresh entries).length ≤ erasures thresh entries ∧
      (erasures thresh entries = (stale thresh entries).length ↔ ∀ entry ∈ entries.dropLast, thresh ≤ entry.2) := by
  induction entries with
  | nil => simp [erasures, stale]
  | cons entry entries ih =>
    obtain ⟨least, equal⟩ := ih
    have split : (stale thresh (entry :: entries)).length =
        (if entry.2 < thresh then 1 else 0) + (stale thresh entries).length := by
      unfold stale
      rw [filter_cons]
      split <;> simp_all [Nat.add_comm]
    rw [erasures, split]
    cases entries with
    | nil => split <;> simp [erasures, stale]
    | cons next entries =>
      rw [dropLast_cons_cons, forall_mem_cons, ← equal, ← UInt64.not_lt, length_cons]
      by_cases old : entry.2 < thresh
      · simp only [old, if_true, not_true_eq_false, false_and, iff_false]
        omega
      · simp only [old, if_false, not_false_eq_true, true_and]
        omega

omit [DecidableEq K] in
theorem length_stale_le_one {thresh : UInt64} {entries : List (Sigma fun _ : K => UInt64)}
    (fresh : ∀ entry ∈ entries.dropLast, thresh ≤ entry.2) : (stale thresh entries).length ≤ 1 := by
  induction entries using List.reverseRecOn with
  | nil => exact Nat.zero_le 1
  | append_singleton entries last _ =>
    rw [dropLast_concat] at fresh
    have empty : stale thresh entries = [] :=
      filter_eq_nil_iff.mpr fun entry member => by simpa using fresh entry member
    rw [stale, filter_append, ← stale, empty, nil_append]
    exact length_filter_le _ [last]

theorem mem_stale_keys {m : TsMap K} {thresh : UInt64} {key : K} :
    key ∈ (stale thresh m.entries).keys ↔ ∃ ts, m.lookup key = some ts ∧ ts < thresh := by
  constructor
  · intro member
    obtain ⟨⟨_, ts⟩, entry, rfl⟩ := mem_map.mp member
    obtain ⟨entry, old⟩ := mem_filter.mp entry
    exact ⟨ts, AList.mem_lookup_iff.mpr entry, by simpa using old⟩
  · rintro ⟨ts, found, old⟩
    have entry := AList.mem_lookup_iff.mp found
    exact mem_map.mpr ⟨⟨key, ts⟩, mem_filter.mpr ⟨entry, by simpa using old⟩, rfl⟩

/-- The map that `_clean` leaves lacks exactly the stale entries. -/
theorem lookup_cleaned (m : TsMap K) (thresh : UInt64) (key : K) :
    (cleanLoop thresh m.entries [] m 0).1.lookup key = (m.lookup key).filter fun ts => thresh ≤ ts := by
  rw [lookup_cleanLoop _ _ _ _ _ _ (by simp)]
  simp only [mem_stale_keys]
  cases found : m.lookup key with
  | none => simp
  | some ts =>
    by_cases old : ts < thresh
    · simp [old, Option.filter]
    · simp [old, Option.filter, UInt64.not_lt.mp old]

/-- What `_clean` is for: the stale entries go, and their number is returned. -/
def Cleans (m : TsMap K) (thresh : UInt64) : Prop :=
  ∃ n after, m.clean thresh = some (n, after) ∧
    (∀ key, after.lookup key = (m.lookup key).filter fun ts => thresh ≤ ts) ∧ n.toNat = (stale thresh m.entries).length

/-- The number is right exactly when at most the last entry visited is stale. -/
theorem cleans_iff (m : TsMap K) (thresh : UInt64) :
    m.Cleans thresh ↔ ∀ entry ∈ m.entries.dropLast, thresh ≤ entry.2 := by
  obtain ⟨least, equal⟩ := erasures_eq_iff thresh m.entries
  have ctr : (cleanLoop thresh m.entries [] m 0).2 = erasures thresh m.entries := by
    rw [ctr_cleanLoop, length_nil, Nat.zero_mul, Nat.zero_add]
  rw [← equal]
  unfold Cleans clean
  dsimp only
  rw [ctr]
  constructor
  · rintro ⟨n, after, run, -, count⟩
    split at run
    · rename_i small
      obtain ⟨rfl, -⟩ := Prod.mk.inj (Option.some.inj run)
      rwa [UInt32.toNat_ofNat_of_lt' (by change _ < 2 ^ 32; omega)] at count
    · cases run
  · intro once
    have few := length_stale_le_one (equal.mp once)
    refine ⟨_, _, if_pos (by omega), lookup_cleaned m thresh, ?_⟩
    rw [UInt32.toNat_ofNat_of_lt' (by change _ < 2 ^ 32; omega), once]

end TsMap

end MoonGen
