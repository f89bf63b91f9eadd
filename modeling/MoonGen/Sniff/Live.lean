import Mathlib.Algebra.Field.Rat
import Mathlib.Data.Rat.Cast.CharZero
import Mathlib.Logic.Function.Basic
import MoonGen.Lib.Welford

namespace MoonGen

/-- `INDEX_MASK`. -/
def indexMask : UInt32 := 0x00FFFFFF

/-- An entry of the `hit_list`. -/
structure HitEntry where
  timestamp : UInt64
  identifier : UInt64
  deriving DecidableEq

/-- The variables of the live mode, with exact numbers for the `double` ones and
the thresholds of the warnings that were printed. -/
structure Sniffer where
  thresh : Int64
  hitList : UInt32 → HitEntry
  hits : UInt32
  misses : UInt32
  latency : Welford ℚ
  warnings : List Int64

/-- A call of the live mode that concerns the table. -/
inductive SniffCall where
  | addEntry (identification : UInt32) (timestamp : UInt64)
  | testFor (identification : UInt32) (timestamp : UInt64)
  deriving DecidableEq

namespace Sniffer

def start : Sniffer where
  thresh := 0
  hitList _ := ⟨0, 0⟩
  hits := 0
  misses := 0
  latency := .empty
  warnings := []

def setThresh (s : Sniffer) (thresh : Int64) : Sniffer := { s with thresh }

def addEntry (s : Sniffer) (identification : UInt32) (timestamp : UInt64) : Sniffer :=
  { s with
    hitList := Function.update s.hitList (identification &&& indexMask) ⟨timestamp, identification.toUInt64⟩ }

/-- `old_ts` of `test_for`: the time stored for the identifier, or zero. -/
def oldTs (s : Sniffer) (identification : UInt32) : UInt64 :=
  let entry := s.hitList (identification &&& indexMask)
  if entry.identifier = identification.toUInt64 then entry.timestamp else 0

def testFor (s : Sniffer) (identification : UInt32) (timestamp : UInt64) : Sniffer :=
  let oldTs := s.oldTs identification
  let s := { s with hitList := Function.update s.hitList (identification &&& indexMask) ⟨0, 0⟩ }
  if oldTs ≠ 0 then
    let diff := (timestamp - oldTs).toInt64
    { s with
      hits := s.hits + 1
      warnings := if diff < s.thresh then s.warnings ++ [s.thresh] else s.warnings
      latency := s.latency.update diff.toInt }
  else { s with misses := s.misses + 1 }

def call (s : Sniffer) : SniffCall → Sniffer
  | .addEntry identification timestamp => s.addEntry identification timestamp
  | .testFor identification timestamp => s.testFor identification timestamp

def run (s : Sniffer) (calls : List SniffCall) : Sniffer := calls.foldl call s

end Sniffer

def SniffCall.slot : SniffCall → UInt32
  | .addEntry identification _ | .testFor identification _ => identification &&& indexMask

def SniffCall.isTest : SniffCall → Bool
  | .addEntry _ _ => false
  | .testFor _ _ => true

/-- The most recent of the calls that touch a slot. -/
def lastTouch (slot : UInt32) (calls : List SniffCall) : Option SniffCall :=
  (calls.filter fun c => c.slot = slot).getLast?

theorem lastTouch_append (slot : UInt32) (calls : List SniffCall) (c : SniffCall) :
    lastTouch slot (calls ++ [c]) = if c.slot = slot then some c else lastTouch slot calls := by
  unfold lastTouch
  rw [List.filter_append]
  by_cases same : c.slot = slot
  · simp [same]
  · simp [same]

/-- What the last call that touched a slot left there. -/
def SniffCall.left : Option SniffCall → HitEntry
  | some (.addEntry identification timestamp) => ⟨timestamp, identification.toUInt64⟩
  | some (.testFor _ _) | none => ⟨0, 0⟩

/-- The difference that a test finds after some calls, from what touched its slot. -/
def matched (calls : List SniffCall) (identification : UInt32) (timestamp : UInt64) : Option Int64 :=
  match lastTouch (identification &&& indexMask) calls with
  | some (.addEntry stored t) => if stored = identification ∧ t ≠ 0 then some (timestamp - t).toInt64 else none
  | _ => none

namespace Sniffer

/-- The counters move by a difference that was found, or by a miss. -/
structure Counted (s after : Sniffer) (found : Option Int64) : Prop where
  hits : after.hits = s.hits + if found.isSome then 1 else 0
  misses : after.misses = s.misses + if found.isSome then 0 else 1
  latency : after.latency = found.elim s.latency fun d => s.latency.update d.toInt

section
variable {s : Sniffer}

theorem run_append (s : Sniffer) (calls : List SniffCall) (c : SniffCall) :
    s.run (calls ++ [c]) = (s.run calls).call c := by
  rw [run, List.foldl_append]
  rfl

theorem hitList_call (s : Sniffer) (c : SniffCall) :
    (s.call c).hitList = Function.update s.hitList c.slot (SniffCall.left (some c)) := by
  cases c with
  | addEntry identification timestamp => rfl
  | testFor identification timestamp =>
    unfold call testFor
    dsimp only
    split <;> rfl

/-- The table is what the last call on each slot left there. -/
theorem hitList_run (empty : ∀ slot, s.hitList slot = ⟨0, 0⟩) (calls : List SniffCall) (slot : UInt32) :
    (s.run calls).hitList slot = SniffCall.left (lastTouch slot calls) := by
  induction calls using List.reverseRecOn with
  | nil => exact empty slot
  | append_singleton calls c ih =>
    rw [run_append, hitList_call, lastTouch_append]
    by_cases same : c.slot = slot
    · rw [same, Function.update_self, if_pos rfl]
    · rw [Function.update_of_ne (Ne.symm same), if_neg same, ih]

theorem toUInt64_inj {a b : UInt32} : a.toUInt64 = b.toUInt64 ↔ a = b := by
  constructor
  · intro same
    have value := congrArg UInt64.toNat same
    rw [UInt32.toNat_toUInt64, UInt32.toNat_toUInt64] at value
    exact UInt32.toNat_inj.mp value
  · exact congrArg _

theorem counted_of_zero {identification : UInt32} (zero : s.oldTs identification = 0) (timestamp : UInt64) :
    Counted s (s.testFor identification timestamp) none := by
  unfold testFor
  simp only [zero, ne_eq, not_true_eq_false, if_false]
  exact ⟨(UInt32.add_zero _).symm, rfl, rfl⟩

theorem counted_of_stored {identification : UInt32} {t : UInt64} (stored : s.oldTs identification = t) (set : t ≠ 0)
    (timestamp : UInt64) : Counted s (s.testFor identification timestamp) (some (timestamp - t).toInt64) := by
  unfold testFor
  simp only [stored, ne_eq, set, not_false_eq_true, if_true]
  exact ⟨rfl, (UInt32.add_zero _).symm, rfl⟩

/-- A test counts as the history of its slot says. -/
theorem testFor_counted (empty : ∀ slot, s.hitList slot = ⟨0, 0⟩) (calls : List SniffCall) (identification : UInt32)
    (timestamp : UInt64) :
    Counted (s.run calls) ((s.run calls).testFor identification timestamp)
      (matched calls identification timestamp) := by
  have table := hitList_run empty calls (identification &&& indexMask)
  unfold matched
  generalize touched : lastTouch (identification &&& indexMask) calls = last at table
  match last with
  | none | some (.testFor _ _) =>
    refine counted_of_zero ?_ timestamp
    simp only [oldTs, table, SniffCall.left, ite_self]
  | some (.addEntry stored t) =>
    have old : (s.run calls).oldTs identification = if stored = identification then t else 0 := by
      simp only [oldTs, table, SniffCall.left, toUInt64_inj]
    dsimp only
    by_cases same : stored = identification
    · rw [if_pos same] at old
      by_cases zero : t = 0
      · rw [if_neg fun both => both.2 zero]
        exact counted_of_zero (old.trans zero) timestamp
      · rw [if_pos ⟨same, zero⟩]
        exact counted_of_stored old zero timestamp
    · rw [if_neg same] at old
      rw [if_neg fun both => same both.1]
      exact counted_of_zero old timestamp

theorem Counted.total {after : Sniffer} {found : Option Int64} (counted : Counted s after found) :
    after.hits + after.misses = s.hits + s.misses + 1 := by
  obtain ⟨hits, misses, -⟩ := counted
  rw [hits, misses]
  cases found with
  | none => simp [UInt32.add_assoc]
  | some d => simp [UInt32.add_assoc, UInt32.add_comm 1]

theorem hits_add_misses_run (empty : ∀ slot, s.hitList slot = ⟨0, 0⟩) (calls : List SniffCall) :
    (s.run calls).hits + (s.run calls).misses = s.hits + s.misses + .ofNat (calls.countP SniffCall.isTest) := by
  induction calls using List.reverseRecOn with
  | nil => simp [run]
  | append_singleton calls c ih =>
    rw [run_append, List.countP_append, List.countP_singleton]
    cases c with
    | addEntry identification timestamp => simpa [call, addEntry, SniffCall.isTest] using ih
    | testFor identification timestamp =>
      have counted := testFor_counted empty calls identification timestamp
      rw [call, counted.total, ih, SniffCall.isTest, if_pos rfl, UInt32.ofNat_add, UInt32.add_assoc]
      rfl

end

/-- A test is a hit exactly when the last call on its slot stored its identifier
with a time that is not zero, and its sample is the time since. Every other test
is a miss, and nothing else is counted. -/
theorem live_matching (thresh : Int64) (calls : List SniffCall) (identification : UInt32) (timestamp : UInt64) :
    let s := (start.setThresh thresh).run calls
    let after := s.testFor identification timestamp
    (∀ t, t ≠ 0 → lastTouch (identification &&& indexMask) calls = some (.addEntry identification t) →
      after.hits = s.hits + 1 ∧ after.misses = s.misses ∧
        after.latency = s.latency.update (timestamp - t).toInt64.toInt) ∧
    ((¬∃ t, t ≠ 0 ∧ lastTouch (identification &&& indexMask) calls = some (.addEntry identification t)) →
      after.hits = s.hits ∧ after.misses = s.misses + 1 ∧ after.latency = s.latency) ∧
    s.hits + s.misses = .ofNat (calls.countP SniffCall.isTest) := by
  intro s after
  have empty : ∀ slot, (start.setThresh thresh).hitList slot = ⟨0, 0⟩ := fun _ => rfl
  obtain ⟨hits, misses, latency⟩ := testFor_counted empty calls identification timestamp
  refine ⟨?_, ?_, ?_⟩
  · intro t set touched
    have found : matched calls identification timestamp = some (timestamp - t).toInt64 := by
      simp [matched, touched, set]
    rw [found] at hits misses latency
    exact ⟨hits, by simpa using misses, latency⟩
  · intro other
    have unmatched : matched calls identification timestamp = none := by
      unfold matched
      split
      · rename_i stored t touched
        refine if_neg ?_
        rintro ⟨rfl, set⟩
        exact other ⟨t, set, touched⟩
      · rfl
    rw [unmatched] at hits misses latency
    exact ⟨by simpa using hits, misses, latency⟩
  · exact (hits_add_misses_run empty calls).trans (UInt32.zero_add _)

end Sniffer

end MoonGen
