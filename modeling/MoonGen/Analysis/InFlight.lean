import Mathlib.Algebra.BigOperators.Group.List.Basic
import Mathlib.Data.List.Nodup
import MoonGen.Analysis.Rows

namespace MoonGen

open List

/-- An entry of `packageInFly`, with the row that it was made for. -/
structure InFlightEntry (ι : Type*) where
  id : ι
  timeStampSrc : ℚ
  packageInFlyCount : Int
  byteInFlyCount : Int
  packet : TraceRow ι
deriving DecidableEq

/-- What the functions keep of the packets in flight, and the lines of their three files. -/
structure InFlight (ι : Type*) where
  packageInFlyCount : Int := 0
  byteInFlyCount : Int := 0
  packageInFly : List (InFlightEntry ι) := []
  packageLines : List (ι × ℚ × Int) := []
  byteLines : List (ι × ℚ × Int) := []
  latencyLines : List (ι × ℚ × ℚ) := []
deriving DecidableEq

namespace InFlight

variable {ι : Type*} [DecidableEq ι]

def send (s : InFlight ι) (row : TraceRow ι) (timeStampSrc : ℚ) : InFlight ι :=
  let packageInFlyCount := s.packageInFlyCount + 1
  let byteInFlyCount := s.byteInFlyCount + row.length
  { s with
    packageInFlyCount
    byteInFlyCount
    packageInFly := s.packageInFly ++
      [{ id := row.id, timeStampSrc, packageInFlyCount, byteInFlyCount, packet := row }] }

/-- The first part of an arrival: the counters go down, and if the list has an entry for the
packet, its lines are written. -/
def written (startTimeStamp : ℚ) (s : InFlight ι) (row : TraceRow ι) : InFlight ι :=
  let s := { s with
    packageInFlyCount := s.packageInFlyCount - 1
    byteInFlyCount := s.byteInFlyCount - row.length }
  match s.packageInFly.find? fun pck => pck.id = row.id with
  | none => s
  | some pck =>
    let latency := row.time - startTimeStamp - pck.timeStampSrc
    { s with
      packageLines := s.packageLines ++ [(pck.id, pck.timeStampSrc, pck.packageInFlyCount)]
      byteLines := s.byteLines ++ [(pck.id, pck.timeStampSrc, pck.byteInFlyCount)]
      latencyLines := s.latencyLines ++ [(pck.id, pck.timeStampSrc, latency)] }

/-- The whole of it. An error in the call that removes the entry leaves the lines on the files. -/
def arrive (remove : InFlightEntry ι → List (InFlightEntry ι) → Except PythonError (List (InFlightEntry ι)))
    (startTimeStamp : ℚ) (s : InFlight ι) (row : TraceRow ι) : Except PythonError (InFlight ι) :=
  match s.packageInFly.find? fun pck => pck.id = row.id with
  | none => .ok (s.written startTimeStamp row)
  | some pck => do
    let packageInFly ← remove pck s.packageInFly
    return { s.written startTimeStamp row with packageInFly }

/-- The call `packageInFly.remove(pck)`. -/
def removeEntry (pck : InFlightEntry ι) (packageInFly : List (InFlightEntry ι)) :
    Except PythonError (List (InFlightEntry ι)) := .ok (packageInFly.erase pck)

/-- The bytes of the packets in flight. -/
def bytes (packageInFly : List (InFlightEntry ι)) : Int := (packageInFly.map fun pck => (pck.packet.length : Int)).sum

omit [DecidableEq ι] in
theorem bytes_append (left right : List (InFlightEntry ι)) : bytes (left ++ right) = bytes left + bytes right := by
  rw [bytes, bytes, bytes, map_append, sum_append]

omit [DecidableEq ι] in
theorem bytes_cons (pck : InFlightEntry ι) (packageInFly : List (InFlightEntry ι)) :
    bytes (pck :: packageInFly) = pck.packet.length + bytes packageInFly := by
  rw [bytes, bytes, map_cons, sum_cons]

omit [DecidableEq ι] in
theorem send_packageInFly (s : InFlight ι) (row : TraceRow ι) (timeStampSrc : ℚ) :
    (s.send row timeStampSrc).packageInFly = s.packageInFly ++
      [⟨row.id, timeStampSrc, s.packageInFlyCount + 1, s.byteInFlyCount + row.length, row⟩] := rfl

variable {s : InFlight ι} {row : TraceRow ι}

theorem arrive_missing (remove : InFlightEntry ι → List (InFlightEntry ι) → Except PythonError (List (InFlightEntry ι)))
    (startTimeStamp : ℚ) (missing : ∀ pck ∈ s.packageInFly, pck.id ≠ row.id) :
    s.arrive remove startTimeStamp row = .ok { s with
      packageInFlyCount := s.packageInFlyCount - 1
      byteInFlyCount := s.byteInFlyCount - row.length } := by
  have absent : (s.packageInFly.find? fun pck => pck.id = row.id) = none := by
    rw [find?_eq_none]
    intro pck member
    simpa using missing pck member
  simp only [arrive, written, absent]

theorem find_of_present (present : ∃ pck ∈ s.packageInFly, pck.id = row.id) :
    ∃ pck, (s.packageInFly.find? fun pck => pck.id = row.id) = some pck := by
  rw [← Option.isSome_iff_exists, find?_isSome]
  simpa using present

variable {startTimeStamp : ℚ} {pck : InFlightEntry ι}

theorem written_latencyLines (found : (s.packageInFly.find? fun pck => pck.id = row.id) = some pck) :
    (s.written startTimeStamp row).latencyLines =
      s.latencyLines ++ [(row.id, pck.timeStampSrc, row.time - startTimeStamp - pck.timeStampSrc)] := by
  have own : pck.id = row.id := by simpa using find?_some found
  simp only [written, found, own]

/-- The lines of an arrival are those that are written before the entry is removed. -/
theorem arrive_latencyLines
    {remove : InFlightEntry ι → List (InFlightEntry ι) → Except PythonError (List (InFlightEntry ι))} {t : InFlight ι}
    (run : s.arrive remove startTimeStamp row = .ok t) :
    t.latencyLines = (s.written startTimeStamp row).latencyLines := by
  unfold arrive at run
  split at run
  · rw [← Except.ok.inj run]
  · rename_i pck _
    cases removed : remove pck s.packageInFly with
    | error e =>
      rw [removed] at run
      cases run
    | ok rest =>
      rw [removed] at run
      rw [← Except.ok.inj run]

/-- An arrival takes the first entry for the packet and writes a line for it. -/
structure Takes (s : InFlight ι) (row : TraceRow ι) (t : InFlight ι) (early : List (InFlightEntry ι))
    (pck : InFlightEntry ι) (late : List (InFlightEntry ι)) : Prop where
  whole : s.packageInFly = early ++ pck :: late
  own : pck.id = row.id
  others : ∀ other ∈ early, other.id ≠ row.id
  count : t.packageInFlyCount = s.packageInFlyCount - 1
  bytes : t.byteInFlyCount = s.byteInFlyCount - row.length
  rest : t.packageInFly = early ++ late
  line : ∃ latency, t.latencyLines = s.latencyLines ++ [(row.id, pck.timeStampSrc, latency)]

theorem takes_of_arrive
    {remove : InFlightEntry ι → List (InFlightEntry ι) → Except PythonError (List (InFlightEntry ι))}
    (removes : ∀ pck entries rest, remove pck entries = .ok rest → rest = entries.erase pck)
    {t : InFlight ι}
    (found : (s.packageInFly.find? fun pck => pck.id = row.id) = some pck)
    (run : s.arrive remove startTimeStamp row = .ok t) : ∃ early late, s.Takes row t early pck late := by
  obtain ⟨same, early, late, whole, before⟩ := find?_eq_some_iff_append.mp found
  have own : pck.id = row.id := by simpa using same
  have others : ∀ other ∈ early, other.id ≠ row.id := fun other member => by simpa using before other member
  simp only [arrive, found] at run
  cases removed : remove pck s.packageInFly with
  | error e =>
    rw [removed] at run
    cases run
  | ok rest =>
    have erased : rest = early ++ late := by
      rw [removes _ _ _ removed, whole, erase_append_right _ fun member => others pck member own, erase_cons_head]
    rw [removed] at run
    cases run
    refine ⟨early, late, whole, own, others, ?_, ?_, erased, _, written_latencyLines found⟩
    · simp only [written, found]
    · simp only [written, found]

/-- The packets that have an entry or a line. -/
def ids (s : InFlight ι) : List ι := s.packageInFly.map InFlightEntry.id ++ s.latencyLines.map Prod.fst

omit [DecidableEq ι] in
theorem ids_send (s : InFlight ι) (row : TraceRow ι) (timeStampSrc : ℚ) :
    (s.send row timeStampSrc).ids.Perm (row.id :: s.ids) := by
  rw [ids, ids, send_packageInFly, map_append, append_assoc]
  exact perm_middle

omit [DecidableEq ι] in
theorem Takes.ids_perm {t : InFlight ι} {early late : List (InFlightEntry ι)} (takes : s.Takes row t early pck late) :
    t.ids.Perm s.ids := by
  obtain ⟨latency, lines⟩ := takes.line
  have after : t.ids =
      early.map InFlightEntry.id ++ (late.map InFlightEntry.id ++ s.latencyLines.map Prod.fst) ++ [row.id] := by
    simp [ids, takes.rest, lines]
  have before : s.ids =
      early.map InFlightEntry.id ++ row.id :: (late.map InFlightEntry.id ++ s.latencyLines.map Prod.fst) := by
    rw [ids, takes.whole, map_append, map_cons, takes.own, append_assoc, cons_append]
  rw [after, before]
  exact (perm_append_singleton _ _).trans perm_middle.symm

theorem removeEntry_removes (pck : InFlightEntry ι) (entries rest : List (InFlightEntry ι))
    (removed : removeEntry pck entries = .ok rest) : rest = entries.erase pck :=
  (Except.ok.inj removed).symm

theorem arrive_found (startTimeStamp : ℚ) (present : ∃ pck ∈ s.packageInFly, pck.id = row.id) :
    ∃ t early pck late, s.arrive removeEntry startTimeStamp row = .ok t ∧ s.Takes row t early pck late := by
  obtain ⟨pck, found⟩ := find_of_present present
  cases run : s.arrive removeEntry startTimeStamp row with
  | error e =>
    simp only [arrive, found] at run
    cases run
  | ok t =>
    obtain ⟨early, late, takes⟩ := takes_of_arrive removeEntry_removes found run
    exact ⟨t, early, pck, late, rfl, takes⟩

theorem arrive_found_error (startTimeStamp : ℚ) (error : PythonError)
    (present : ∃ pck ∈ s.packageInFly, pck.id = row.id) :
    s.arrive (fun _ _ => .error error) startTimeStamp row = .error error := by
  obtain ⟨pck, found⟩ := find_of_present present
  simp only [arrive, found]
  rfl

end InFlight

end MoonGen
