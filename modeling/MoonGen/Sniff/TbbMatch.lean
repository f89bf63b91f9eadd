import Mathlib.Data.Rat.Defs
import MoonGen.Lib.Machine
import MoonGen.Sniff.ArrMatch
import MoonGen.Sniff.HashMap

namespace MoonGen

variable {K : Type} [DecidableEq K]

/-- `TABLE_TARGET_SIZE`. -/
def tableTargetSize : Nat := 10000

/-- `DELETION_THRESH`. -/
def deletionThresh : Nat := 1000000000

/-- The point that `tbbCore` stands at: the prefilling with its counter, the three
calls of the matching loop, or the leftovers. -/
inductive TbbPc where
  | prefill (ctr : Nat)
  | addKeyVal
  | getKeyVal
  | checkClean
  | leftovers
  | returned
  | undefined
  deriving DecidableEq

/-- A packet as `extractData` leaves it: its key and its timestamp. -/
structure Extract (K : Type) where
  key : K
  ts : UInt64

/-- The variables of `tbbCore`, the packets still to be read from the two files,
and the differences given to the histogram and to the warnings. -/
structure TbbCore (K : Type) where
  pc : TbbPc
  pre : List (Extract K)
  post : List (Extract K)
  tbbmap : TsMap K
  tableSize : Int
  lastHit : Nat
  tableThreshSize : ℚ
  misses : Nat
  packets : Nat
  updates : List Int64
  warnings : List Int64

namespace TbbCore

def start (pre post : List (Extract K)) : TbbCore K where
  pc := .prefill tableTargetSize
  pre
  post
  tbbmap := ∅
  tableSize := 0
  lastHit := 0
  tableThreshSize := 1000
  misses := 0
  packets := 0
  updates := []
  warnings := []

/-- `addKeyVal` for a packet of the pre file, and the statement behind it. -/
def addKeyVal (s : TbbCore K) (cap : Extract K) : TbbCore K :=
  { s with tbbmap := s.tbbmap.insert cap.key cap.ts, tableSize := s.tableSize + 1 }

def getKeyVal (s : TbbCore K) (cap : Extract K) : TbbCore K :=
  match s.tbbmap.lookup cap.key with
  | some preTs =>
    let diff := (cap.ts - preTs).toInt64
    let s := { s with tbbmap := s.tbbmap.erase cap.key, tableSize := s.tableSize - 1 }
    if diff < timeThresh then { s with warnings := s.warnings ++ [diff] }
    else { s with updates := s.updates ++ [diff] }
  | none => { s with misses := s.misses + 1 }

def checkClean (s : TbbCore K) : TbbCore K :=
  if tableTargetSize + s.tableThreshSize < s.tableSize then
    match s.tbbmap.clean (.ofNat (s.lastHit - deletionThresh)) with
    | some (cleaned, tbbmap) =>
      { s with
        tbbmap
        tableSize := s.tableSize - cleaned.toNat
        tableThreshSize := if cleaned = 0 then s.tableThreshSize * (7 / 5) else s.tableThreshSize }
    | none => { s with pc := .undefined }
  else s

/-- The next step of `tbbCore`: a head of a loop, or one call with what follows it. -/
def step (s : TbbCore K) : TbbCore K :=
  match s.pc with
  | .prefill ctr =>
    match ctr, s.pre with
    | ctr + 1, cap :: pre => { s.addKeyVal cap with pre, packets := s.packets + 1, pc := .prefill ctr }
    | _, _ => { s with pc := .addKeyVal }
  | .addKeyVal =>
    match s.post, s.pre with
    | _ :: _, cap :: pre => { s.addKeyVal cap with pre, pc := .getKeyVal }
    | _, _ => { s with pc := .leftovers }
  | .getKeyVal =>
    match s.post with
    | cap :: post => { s.getKeyVal cap with post, pc := .checkClean }
    | [] => s
  | .checkClean => { s with pc := .addKeyVal, packets := s.packets + 2 }.checkClean
  | .leftovers =>
    match s.post with
    | cap :: post => { s.getKeyVal cap with post, packets := s.packets + 1 }
    | [] => { s with pc := .returned }
  | .returned | .undefined => s

/-- The packet that the next step adds to the map. -/
def adds (s : TbbCore K) : Option (Extract K) :=
  match s.pc with
  | .prefill 0 => none
  | .prefill (_ + 1) => s.pre.head?
  | .addKeyVal => if s.post.isEmpty then none else s.pre.head?
  | _ => none

def machine (pre post : List (Extract K)) : Machine (TbbCore K) Unit where
  start s := s = start pre post
  enabled _ _ := True
  next s _ := s.step

/-- The next step adds no packet under a key that the map has. -/
def FreshKey (s : TbbCore K) (_ : Unit) : Prop := ∀ cap ∈ s.adds, cap.key ∉ s.tbbmap

/-- `tableSize` is the number of entries. -/
def Sized (s : TbbCore K) : Prop := s.tableSize = s.tbbmap.size

section
variable {s : TbbCore K}

theorem sized_addKeyVal_iff (sized : s.Sized) (cap : Extract K) : (s.addKeyVal cap).Sized ↔ cap.key ∉ s.tbbmap := by
  have before : s.tableSize = s.tbbmap.size := sized
  change s.tableSize + 1 = (TsMap.size (s.tbbmap.insert cap.key cap.ts) : Int) ↔ _
  rw [TsMap.size_insert, before]
  by_cases member : cap.key ∈ s.tbbmap
  · simp only [member, if_true, not_true_eq_false, iff_false]
    omega
  · simp only [member, if_false, not_false_eq_true, iff_true]
    omega

theorem Sized.getKeyVal (sized : s.Sized) (cap : Extract K) : (s.getKeyVal cap).Sized := by
  have before : s.tableSize = s.tbbmap.size := sized
  unfold TbbCore.getKeyVal
  split
  · rename_i preTs found
    have member : cap.key ∈ s.tbbmap := AList.lookup_isSome.mp (by rw [found]; rfl)
    have less := TsMap.size_erase member
    have after : s.tableSize - 1 = (TsMap.size (s.tbbmap.erase cap.key) : Int) := by omega
    dsimp only
    split <;> exact after
  · exact sized

theorem lastHit_getKeyVal (s : TbbCore K) (cap : Extract K) : (s.getKeyVal cap).lastHit = s.lastHit := by
  unfold TbbCore.getKeyVal
  split
  · dsimp only
    split <;> rfl
  · rfl

/-- Nothing ever sets `lastHit`, so that a cleaning removes nothing. -/
theorem checkClean_of_lastHit (noHit : s.lastHit = 0) :
    ∃ tableThreshSize, s.checkClean = { s with tableThreshSize } := by
  unfold TbbCore.checkClean
  split
  · have thresh : UInt64.ofNat (s.lastHit - deletionThresh) = 0 := by rw [noHit]; rfl
    rw [thresh, TsMap.clean_zero]
    exact ⟨s.tableThreshSize * (7 / 5), by simp⟩
  · exact ⟨s.tableThreshSize, rfl⟩

theorem lastHit_step (noHit : s.lastHit = 0) : s.step.lastHit = 0 := by
  unfold TbbCore.step
  split
  · split <;> exact noHit
  · split <;> exact noHit
  · split
    · exact (lastHit_getKeyVal _ _).trans noHit
    · exact noHit
  · obtain ⟨_, same⟩ := @checkClean_of_lastHit K _ { s with pc := .addKeyVal, packets := s.packets + 2 } noHit
    rw [same]
    exact noHit
  · split
    · exact (lastHit_getKeyVal _ _).trans noHit
    · exact noHit
  · exact noHit
  · exact noHit

omit [DecidableEq K] in
theorem freshKey_of_none (idle : s.adds = none) : s.FreshKey () := by
  simp [FreshKey, idle]

omit [DecidableEq K] in
theorem freshKey_of_some {cap : Extract K} (addsOne : s.adds = some cap) : s.FreshKey () ↔ cap.key ∉ s.tbbmap := by
  simp [FreshKey, addsOne]

/-- A step that adds a packet does nothing else to the map. -/
theorem step_of_adds {cap : Extract K} (next : s.adds = some cap) :
    ∃ pre packets pc, s.step = { s.addKeyVal cap with pre, packets, pc } := by
  unfold adds at next
  split at next
  · contradiction
  · rename_i ctr state
    obtain ⟨pre, caps⟩ := List.head?_eq_some_iff.mp next
    exact ⟨pre, s.packets + 1, .prefill ctr, by simp only [step, state, caps]⟩
  · rename_i state
    split at next
    · contradiction
    · rename_i more
      obtain ⟨pre, caps⟩ := List.head?_eq_some_iff.mp next
      obtain ⟨postcap, post, posts⟩ := List.exists_cons_of_ne_nil (mt List.isEmpty_iff.mpr more)
      exact ⟨pre, s.packets, .getKeyVal, by simp only [step, state, caps, posts]; rfl⟩
  · contradiction

/-- Any other step leaves the size right. -/
theorem Sized.step_of_none (sized : s.Sized) (noHit : s.lastHit = 0) (idle : s.adds = none) : s.step.Sized := by
  unfold TbbCore.step
  split
  · rename_i ctr state
    split
    · rename_i caps
      rw [adds, state, caps] at idle
      contradiction
    · exact sized
  · rename_i state
    split
    · rename_i posts caps
      rw [adds, state, posts, caps] at idle
      contradiction
    · exact sized
  · split
    · exact sized.getKeyVal _
    · exact sized
  · obtain ⟨_, same⟩ := @checkClean_of_lastHit K _ { s with pc := .addKeyVal, packets := s.packets + 2 } noHit
    rw [same]
    exact sized
  · split
    · exact sized.getKeyVal _
    · exact sized
  · exact sized
  · exact sized

/-- A step keeps `tableSize` right exactly when it adds no key a second time. -/
theorem sized_step_iff (sized : s.Sized) (noHit : s.lastHit = 0) : s.step.Sized ↔ s.FreshKey () := by
  cases next : s.adds with
  | none => exact iff_of_true (sized.step_of_none noHit next) (freshKey_of_none next)
  | some cap =>
    obtain ⟨pre, packets, pc, added⟩ := step_of_adds next
    rw [freshKey_of_some next, added]
    exact sized_addKeyVal_iff sized cap

end

/-- `_clean` does its work exactly when no entry is stale that it does not visit
last. In every run of `tbbCore` that adds no key while the map has it, `tableSize`
is right after each call, and any other addition makes it wrong. -/
theorem map_cleaning_and_size (m : TsMap K) (thresh : UInt64) (pre post : List (Extract K)) :
    (m.Cleans thresh ↔ ∀ entry ∈ m.entries.dropLast, thresh ≤ entry.2) ∧
    ∀ s, ((machine pre post).guarded FreshKey).Reach s → s.Sized ∧ (s.step.Sized ↔ s.FreshKey ()) := by
  refine ⟨m.cleans_iff thresh, fun s reach => ?_⟩
  have right : s.Sized ∧ s.lastHit = 0 := by
    refine reach.invariant (I := fun s => s.Sized ∧ s.lastHit = 0) ?_ ?_
    · rintro s rfl
      exact ⟨rfl, rfl⟩
    · rintro s _ ⟨sized, noHit⟩ ⟨-, fresh⟩
      exact ⟨(sized_step_iff sized noHit).mpr fresh, lastHit_step noHit⟩
  exact ⟨right.1, sized_step_iff right.1 right.2⟩

theorem map_cleaning_and_size_fresh :
    TsMap.Cleans (((∅ : TsMap Nat).insert 1 10).insert 2 200) 100 ∧
    ∃ s, ((machine ([⟨7, 10⟩] : List (Extract Nat)) [⟨7, 30⟩]).guarded FreshKey).Reach s ∧
      s.tableSize = 1 ∧ s.Sized := by
  obtain ⟨cleans, sized⟩ := map_cleaning_and_size (((∅ : TsMap Nat).insert 1 10).insert 2 200) 100 [⟨7, 10⟩] [⟨7, 30⟩]
  have fresh : FreshKey (start ([⟨7, 10⟩] : List (Extract Nat)) [⟨7, 30⟩]) () := by
    intro cap _
    exact List.not_mem_nil
  have reach := Machine.Reach.step (m := (machine [⟨7, 10⟩] [⟨7, 30⟩]).guarded FreshKey) (a := ()) (.start rfl)
    ⟨trivial, fresh⟩
  exact ⟨cleans.mpr (by decide), _, reach, by decide, (sized _ reach).1⟩

/-- Two packets of the pre file with one key. -/
def sameKey : List (Extract Nat) := [⟨7, 10⟩, ⟨7, 20⟩]

/-- Three is returned for two entries removed, since the first one is counted twice.
A key that is added again is counted again in `tableSize`. -/
theorem map_cleaning_and_size_wrong :
    (TsMap.size (((∅ : TsMap Nat).insert 1 10).insert 2 20) = 2 ∧
      (TsMap.clean (((∅ : TsMap Nat).insert 1 10).insert 2 20) 100).map (fun r => (r.1, r.2.size)) = some (3, 0)) ∧
    ∃ s, (machine sameKey []).Reach s ∧ s.tableSize = 2 ∧ s.tbbmap.size = 1 := by
  have one := Machine.Reach.step (m := machine sameKey []) (a := ()) (.start rfl) trivial
  exact ⟨by decide, _, .step (a := ()) one trivial, by decide, by decide⟩

end TbbCore

end MoonGen
