import Mathlib.Data.List.Basic
import Mathlib.Data.List.Nodup
import Mathlib.Logic.Function.Basic

namespace MoonGen

open List

structure Mscap where
  timestamp : UInt64
  identification : UInt32
  deriving DecidableEq

/-- An entry of the array on which is matched. -/
structure ArrEntry where
  timestamp : UInt64
  identifier : UInt32
  deriving DecidableEq

/-- `INDEX_BITMASK`. -/
def indexBitmask : UInt32 := 0x0FFFFFFF

/-- `TIME_THRESH`. -/
def timeThresh : Int64 := -50

def Mscap.ident (cap : Mscap) : UInt32 := cap.identification &&& indexBitmask

/-- The variables of `mod.match`, the differences given to the histogram and to
the warnings, and the places in the file of the records put into the map. -/
structure ArrMatch where
  map : UInt32 → ArrEntry
  overwrites : Nat
  misses : Nat
  prePkts : Nat
  postPkts : Nat
  updates : List Int64
  warnings : List Int64
  inserted : List Nat

namespace ArrMatch

def start : ArrMatch where
  map _ := ⟨0, 0⟩
  overwrites := 0
  misses := 0
  prePkts := 0
  postPkts := 0
  updates := []
  warnings := []
  inserted := []

/-- Puts a record with its place in the file into the map. -/
def insert (s : ArrMatch) (precap : Mscap × Nat) : ArrMatch :=
  let ident := precap.1.ident
  { s with
    prePkts := s.prePkts + 1
    overwrites := if (s.map ident).timestamp ≠ 0 then s.overwrites + 1 else s.overwrites
    map := Function.update s.map ident ⟨precap.1.timestamp, precap.1.identification⟩
    inserted := s.inserted ++ [precap.2] }

/-- The loop of `initialFill` on the current record and those behind it. The
reader it leaves is past the record at which it stops. -/
def initialFill (initialId : UInt32) : List (Mscap × Nat) → ArrMatch → ArrMatch × List (Mscap × Nat)
  | [], s => (s, [])
  | precap :: prereader, s =>
    if initialId ≤ precap.1.ident ∧ precap.1.ident < indexBitmask - 100 then
      initialFill initialId prereader (s.insert precap)
    else (s, prereader)

def computeLatency (s : ArrMatch) (postcap : Mscap) : ArrMatch :=
  let entry := s.map postcap.ident
  let s := { s with map := Function.update s.map postcap.ident ⟨0, 0⟩ }
  if entry.identifier = postcap.identification then
    let diff := (postcap.timestamp - entry.timestamp).toInt64
    if entry.timestamp ≠ 0 ∧ diff < timeThresh then { s with warnings := s.warnings ++ [diff] }
    else if entry.timestamp ≠ 0 then { s with updates := s.updates ++ [diff] }
    else { s with misses := s.misses + 1 }
  else { s with misses := s.misses + 1 }

def post (s : ArrMatch) (postcap : Mscap) : ArrMatch :=
  computeLatency { s with postPkts := s.postPkts + 1 } postcap

/-- The matching loop, which ends with either file. It leaves the rest of the
post file. -/
def matchLoop : List (Mscap × Nat) → List Mscap → ArrMatch → ArrMatch × List Mscap
  | precap :: prereader, postcap :: postreader, s => matchLoop prereader postreader ((s.insert precap).post postcap)
  | _, postcaps, s => (s, postcaps)

def leftovers (s : ArrMatch) (postcaps : List Mscap) : ArrMatch := postcaps.foldl post s

/-- `mod.match`. Without a first record in each file it fails. -/
def arrMatch (pre postcaps : List Mscap) : Option ArrMatch :=
  match pre.zipIdx, postcaps with
  | precap :: prereader, _ :: _ =>
    let (s, prereader) := initialFill precap.1.ident (precap :: prereader) start
    -- `precap` is passed by value, so that the first record is still the current one.
    let (s, postcaps) := matchLoop (precap :: prereader) postcaps s
    some (s.leftovers postcaps)
  | _, _ => none

/-- The counters agree with what was done. -/
structure Balanced (s : ArrMatch) : Prop where
  stored : s.prePkts = s.inserted.length
  tested : s.updates.length + s.misses + s.warnings.length = s.postPkts

/-- The records of the pre file went into the map once each and in their order,
until there were no more of them or of the post records. -/
def UsesOnce (s : ArrMatch) (pre postcaps : List Mscap) : Prop :=
  ∃ n, s.inserted = List.range n ∧ n ≤ pre.length ∧ (n < pre.length → postcaps.length ≤ n)

section
variable {s : ArrMatch}

@[simp] theorem inserted_post (s : ArrMatch) (postcap : Mscap) : (s.post postcap).inserted = s.inserted := by
  unfold post computeLatency
  dsimp only
  split_ifs <;> rfl

@[simp] theorem postPkts_post (s : ArrMatch) (postcap : Mscap) : (s.post postcap).postPkts = s.postPkts + 1 := by
  unfold post computeLatency
  dsimp only
  split_ifs <;> rfl

@[simp] theorem inserted_leftovers (s : ArrMatch) (postcaps : List Mscap) :
    (s.leftovers postcaps).inserted = s.inserted := by
  induction postcaps generalizing s with
  | nil => rfl
  | cons postcap postcaps ih =>
    have step : s.leftovers (postcap :: postcaps) = (s.post postcap).leftovers postcaps := rfl
    rw [step, ih, inserted_post]

@[simp] theorem postPkts_leftovers (s : ArrMatch) (postcaps : List Mscap) :
    (s.leftovers postcaps).postPkts = s.postPkts + postcaps.length := by
  induction postcaps generalizing s with
  | nil => rfl
  | cons postcap postcaps ih =>
    have step : s.leftovers (postcap :: postcaps) = (s.post postcap).leftovers postcaps := rfl
    rw [step, ih, postPkts_post, length_cons]
    omega
section
variable (balanced : s.Balanced)

include balanced

theorem Balanced.insert (precap : Mscap × Nat) : (s.insert precap).Balanced := by
  obtain ⟨stored, tested⟩ := balanced
  exact ⟨by simp [ArrMatch.insert, stored], tested⟩

/-- Each post record is an update, a warning or a miss. -/
theorem Balanced.post (postcap : Mscap) : (s.post postcap).Balanced := by
  obtain ⟨stored, tested⟩ := balanced
  unfold ArrMatch.post computeLatency
  dsimp only
  split_ifs
  all_goals
    refine ⟨stored, ?_⟩
    simp only [length_append, length_singleton]
    omega

theorem Balanced.leftovers (postcaps : List Mscap) : (s.leftovers postcaps).Balanced := by
  induction postcaps generalizing s with
  | nil => exact balanced
  | cons postcap postcaps ih => exact ih (balanced.post postcap)

theorem Balanced.initialFill (initialId : UInt32) (precaps : List (Mscap × Nat)) :
    (initialFill initialId precaps s).1.Balanced := by
  induction precaps generalizing s with
  | nil => exact balanced
  | cons precap precaps ih =>
    unfold ArrMatch.initialFill
    split
    · exact ih (balanced.insert precap)
    · exact balanced

theorem Balanced.matchLoop (precaps : List (Mscap × Nat)) (postcaps : List Mscap) :
    (matchLoop precaps postcaps s).1.Balanced := by
  induction precaps generalizing s postcaps with
  | nil => exact balanced
  | cons precap precaps ih =>
    cases postcaps with
    | nil => exact balanced
    | cons postcap postcaps => exact ih ((balanced.insert precap).post postcap) postcaps
end

theorem inserted_matchLoop (precaps : List (Mscap × Nat)) (postcaps : List Mscap) (s : ArrMatch) :
    (matchLoop precaps postcaps s).1.inserted = s.inserted ++ (precaps.take postcaps.length).map Prod.snd := by
  induction precaps generalizing s postcaps with
  | nil => simp [ArrMatch.matchLoop]
  | cons precap precaps ih =>
    cases postcaps with
    | nil => simp [ArrMatch.matchLoop]
    | cons postcap postcaps =>
      rw [ArrMatch.matchLoop, ih, inserted_post]
      simp [ArrMatch.insert]

theorem postPkts_matchLoop (precaps : List (Mscap × Nat)) (postcaps : List Mscap) (s : ArrMatch) :
    (matchLoop precaps postcaps s).1.postPkts + (matchLoop precaps postcaps s).2.length =
      s.postPkts + postcaps.length := by
  induction precaps generalizing s postcaps with
  | nil => rfl
  | cons precap precaps ih =>
    cases postcaps with
    | nil => rfl
    | cons postcap postcaps =>
      rw [ArrMatch.matchLoop, ih, postPkts_post, length_cons]
      change s.postPkts + 1 + _ = _
      omega

theorem postPkts_initialFill (initialId : UInt32) (precaps : List (Mscap × Nat)) (s : ArrMatch) :
    (initialFill initialId precaps s).1.postPkts = s.postPkts := by
  induction precaps generalizing s with
  | nil => rfl
  | cons precap precaps ih =>
    unfold ArrMatch.initialFill
    split
    · exact ih (s.insert precap)
    · rfl

theorem inserted_subset_initialFill (initialId : UInt32) (precaps : List (Mscap × Nat)) (s : ArrMatch) :
    s.inserted ⊆ (initialFill initialId precaps s).1.inserted := by
  induction precaps generalizing s with
  | nil => exact List.Subset.refl _
  | cons precap precaps ih =>
    unfold ArrMatch.initialFill
    split
    · exact List.Subset.trans (subset_append_left _ _) (ih (s.insert precap))
    · exact List.Subset.refl _

end

/-- The counters are right for all files. The pre records are used once each
exactly when the prefill passes over the first of them. -/
theorem arr_match_uses_once_iff (first : Mscap) (pre : List Mscap) (postcap : Mscap) (postcaps : List Mscap) :
    ∃ s, arrMatch (first :: pre) (postcap :: postcaps) = some s ∧
      s.prePkts = s.inserted.length ∧
      s.updates.length + s.misses + s.warnings.length = s.postPkts ∧
      s.postPkts = (postcap :: postcaps).length ∧
      (s.UsesOnce (first :: pre) (postcap :: postcaps) ↔ indexBitmask - 100 ≤ first.ident) := by
  generalize filled : initialFill first.ident ((first, 0) :: pre.zipIdx 1) start = fill
  generalize looped : matchLoop ((first, 0) :: fill.2) (postcap :: postcaps) fill.1 = loop
  have balanced : (loop.1.leftovers loop.2).Balanced := by
    rw [← looped, ← filled]
    exact (((Balanced.mk rfl rfl).initialFill _ _).matchLoop _ _).leftovers _
  have tested : (loop.1.leftovers loop.2).postPkts = fill.1.postPkts + (postcap :: postcaps).length := by
    rw [postPkts_leftovers, ← looped, postPkts_matchLoop]
  have inserted : (loop.1.leftovers loop.2).inserted =
      fill.1.inserted ++ 0 :: (fill.2.take postcaps.length).map Prod.snd := by
    rw [inserted_leftovers, ← looped, inserted_matchLoop]
    rfl
  refine ⟨loop.1.leftovers loop.2, ?_, balanced.stored, balanced.tested, ?_, ?_⟩
  · simp only [arrMatch, zipIdx_cons, filled, looped]
  · rw [tested, ← filled, postPkts_initialFill]
    exact Nat.zero_add _
  · constructor
    · rintro ⟨n, range, -⟩
      -- The prefill would have put in the first record, which the loop then puts in again.
      by_contra low
      rw [UInt32.not_le] at low
      have again : 0 ∈ fill.1.inserted := by
        rw [← filled, initialFill, if_pos ⟨UInt32.le_refl _, low⟩]
        exact inserted_subset_initialFill _ _ _ (by simp [insert])
      have distinct : (fill.1.inserted ++ 0 :: (fill.2.take postcaps.length).map Prod.snd).Nodup := by
        rw [← inserted, range]
        exact nodup_range
      exact (nodup_append.mp distinct).2.2 0 again 0 mem_cons_self rfl
    · intro high
      have skipped : fill = (start, pre.zipIdx 1) := by
        rw [← filled, initialFill, if_neg fun both => UInt32.not_le.mpr both.2 high]
      refine ⟨min (postcaps.length + 1) (pre.length + 1), ?_, Nat.min_le_right _ _, ?_⟩
      · rw [inserted, skipped, ← take_range, range_eq_range', range'_succ, take_succ_cons,
          map_take, zipIdx_map_snd]
        rfl
      · simp only [length_cons]
        omega

/-- The prefill stops at the second of three records: the first one goes in again,
and the second one never does. -/
theorem arr_match_uses_twice : ∃ s,
    arrMatch [⟨10, 1⟩, ⟨20, 0x0FFFFFFF⟩, ⟨30, 3⟩] [⟨15, 1⟩, ⟨25, 0x0FFFFFFF⟩, ⟨35, 3⟩] = some s ∧
    s.inserted = [0, 0, 2] ∧
    ¬s.UsesOnce [⟨10, 1⟩, ⟨20, 0x0FFFFFFF⟩, ⟨30, 3⟩] [⟨15, 1⟩, ⟨25, 0x0FFFFFFF⟩, ⟨35, 3⟩] := by
  have run : (arrMatch [⟨10, 1⟩, ⟨20, 0x0FFFFFFF⟩, ⟨30, 3⟩] [⟨15, 1⟩, ⟨25, 0x0FFFFFFF⟩, ⟨35, 3⟩]).map inserted =
      some [0, 0, 2] := by
    decide +kernel
  obtain ⟨s, run, inserted⟩ := Option.map_eq_some_iff.mp run
  refine ⟨s, run, inserted, ?_⟩
  rintro ⟨n, range, -⟩
  have distinct : (List.range n).Nodup := nodup_range
  rw [← range, inserted] at distinct
  exact absurd distinct (by decide)

end ArrMatch

end MoonGen
