import MoonGen.Analysis.InFlight
import MoonGen.Lib.Machine

namespace MoonGen

open List

variable {ι : Type*} [DecidableEq ι]

/-- What the first pass makes: the rows, each with the mark of a lost packet, and the counters. -/
structure LossMarks (ι : Type*) where
  csvArray : List (TraceRow ι × Bool) := []
  arrivedPackageCount : Nat := 0
  dropedPackageCount : Nat := 0

/-- A packet is taken for lost if no row behind it receives one with its id. -/
def LossMarks.step (o : Interfaces) (m : LossMarks ι) : TraceRow ι × List (TraceRow ι) → LossMarks ι
  | (row, later) =>
    if row.iface = o.interfaceSource then
      if later.any (o.receives row.id) then
        { m with
          csvArray := m.csvArray ++ [(row, false)]
          arrivedPackageCount := m.arrivedPackageCount + 1 }
      else
        { m with
          csvArray := m.csvArray ++ [(row, true)]
          dropedPackageCount := m.dropedPackageCount + 1 }
    else { m with csvArray := m.csvArray ++ [(row, false)] }

def markDroped (o : Interfaces) (csvArray : List (TraceRow ι)) : LossMarks ι :=
  (withLater csvArray).foldl (LossMarks.step o) {}

/-- What the second pass keeps. -/
structure LossFlight (ι : Type*) where
  sumBytes : Nat := 0
  dropedLines : List (ι × ℚ × Int) := []
  flight : InFlight ι := {}
deriving DecidableEq

/-- The mark stands where the protocol stood, so that the row of a lost packet fails to be read,
as does one without a protocol. -/
def LossFlight.step (o : Interfaces) (startTimeStamp : ℚ) (s : LossFlight ι) :
    TraceRow ι × Bool → Except PythonError (LossFlight ι)
  | (row, droped) =>
    if droped then
      let line := (row.id, row.time - startTimeStamp, s.flight.packageInFlyCount)
      .ok { s with dropedLines := s.dropedLines ++ [line] }
    else if row.proto = none then .ok s
    else if row.iface = o.interfaceSource then
      .ok { s with
        flight := s.flight.send row (row.time - startTimeStamp)
        sumBytes := s.sumBytes + row.length }
    else if row.iface = o.interfaceDestination then do
      let flight ← s.flight.arrive InFlight.removeEntry startTimeStamp row
      return { s with flight }
    else .ok s

/-- The line of details, and the files. -/
structure LossReport (ι : Type*) where
  throughput : ℚ
  arrivedPackageCount : Nat
  dropedPackageCount : Nat
  files : LossFlight ι

def pcktInFlyFirstSendUDPInterval2sec (o : Interfaces) (file : List (TraceRow ι)) :
    Except PythonError (LossReport ι) := do
  let csvArray := rowsInterval2sec file
  let first ← csvArray.head?.elim (.error .indexError) .ok
  let marks := markDroped o csvArray
  let s ← marks.csvArray.foldlM (LossFlight.step o first.time) {}
  let packageCount := marks.arrivedPackageCount + marks.dropedPackageCount
  if packageCount = 0 then .error .zeroDivisionError
  else return {
    throughput := s.sumBytes / packageCount
    arrivedPackageCount := marks.arrivedPackageCount
    dropedPackageCount := marks.dropedPackageCount
    files := s }

/-- The two passes over some rows agree. -/
structure LossAccounts (o : Interfaces) (startTimeStamp : ℚ) (csvArray : List (TraceRow ι)) : Prop where
  sources : (markDroped o csvArray).arrivedPackageCount + (markDroped o csvArray).dropedPackageCount =
    csvArray.countP (·.iface = o.interfaceSource)
  lines : Component.Yields (·.flight.latencyLines.length = (markDroped o csvArray).arrivedPackageCount)
    ((markDroped o csvArray).csvArray.foldlM (LossFlight.step o startTimeStamp) {})
  matched : Component.Along (LossFlight.step o startTimeStamp)
    (fun s _ out => Component.Yields (·.flight.latencyLines.length ≤ s.flight.latencyLines.length + 1) out)
    {} (markDroped o csvArray).csvArray
  balanced : Component.Along (LossFlight.step o startTimeStamp)
    (fun _ _ out => Component.Yields (fun t => t.flight.packageInFlyCount = t.flight.packageInFly.length) out)
    {} (markDroped o csvArray).csvArray

namespace Interfaces

variable (o : Interfaces)

/-- A row for which the second pass makes an entry, unless the packet is lost. -/
def enters (row : TraceRow ι) : Bool := row.proto.isSome && row.iface = o.interfaceSource

/-- A row for which the second pass looks for an entry. -/
def leaves (row : TraceRow ι) : Bool :=
  row.proto.isSome && row.iface ≠ o.interfaceSource && row.iface = o.interfaceDestination

def entersMarked (c : TraceRow ι × Bool) : Bool := !c.2 && o.enters c.1

def leavesMarked (c : TraceRow ι × Bool) : Bool := !c.2 && o.leaves c.1

/-- A row for which there is an entry, by the rows before it. -/
def Outnumbered (before : List (TraceRow ι × Bool)) (c : TraceRow ι × Bool) : Prop :=
  o.leavesMarked c = true → before.countP (fun d => o.leavesMarked d && d.1.id = c.1.id) <
    before.countP (fun d => o.entersMarked d && d.1.id = c.1.id)

/-- A row that sends a packet, and whether a row behind receives one with its id. -/
def delivered (c : TraceRow ι × List (TraceRow ι)) : Bool :=
  c.1.iface = o.interfaceSource && c.2.any (o.receives c.1.id)

def lost (c : TraceRow ι × List (TraceRow ι)) : Bool :=
  c.1.iface = o.interfaceSource && !c.2.any (o.receives c.1.id)

end Interfaces

/-- The state behind some rows, if the property held so far. -/
structure LossFlight.Tracks (o : Interfaces) (before : List (TraceRow ι × Bool)) (s : LossFlight ι) : Prop where
  count : s.flight.packageInFlyCount = s.flight.packageInFly.length
  entries : ∀ id,
    (s.flight.packageInFly.countP (·.id = id)) + before.countP (fun c => o.leavesMarked c && c.1.id = id) =
      before.countP (fun c => o.entersMarked c && c.1.id = id)
  lines : s.flight.latencyLines.length = before.countP o.leavesMarked

section Marks

variable {o : Interfaces}

theorem LossMarks.foldl_step (m : LossMarks ι) (calls : List (TraceRow ι × List (TraceRow ι))) :
    calls.foldl (LossMarks.step o) m =
      ⟨m.csvArray ++ calls.map fun c => (c.1, o.lost c), m.arrivedPackageCount + calls.countP o.delivered,
        m.dropedPackageCount + calls.countP o.lost⟩ := by
  induction calls generalizing m with
  | nil => simp
  | cons c calls ih =>
    obtain ⟨row, later⟩ := c
    rw [foldl_cons, ih, countP_cons, countP_cons, map_cons]
    by_cases source : row.iface = o.interfaceSource
    · cases found : later.any (o.receives row.id)
      · simp [step, source, found, Interfaces.lost, Interfaces.delivered, Nat.add_assoc, Nat.add_comm]
      · simp [step, source, found, Interfaces.lost, Interfaces.delivered, Nat.add_assoc, Nat.add_comm]
    · simp [step, source, Interfaces.lost, Interfaces.delivered]

theorem markDroped_eq (csvArray : List (TraceRow ι)) :
    markDroped o csvArray = ⟨(withLater csvArray).map fun c => (c.1, o.lost c), (withLater csvArray).countP o.delivered,
      (withLater csvArray).countP o.lost⟩ := by
  rw [markDroped, LossMarks.foldl_step]
  simp

/-- Each row of the source is counted once. -/
theorem markDroped_sources (csvArray : List (TraceRow ι)) :
    (markDroped o csvArray).arrivedPackageCount + (markDroped o csvArray).dropedPackageCount =
      csvArray.countP (·.iface = o.interfaceSource) := by
  rw [markDroped_eq]
  induction csvArray with
  | nil => rfl
  | cons row later ih =>
    simp only [withLater, countP_cons] at ih ⊢
    rw [← ih]
    by_cases source : row.iface = o.interfaceSource
    · cases found : later.any (o.receives row.id)
      · simp [source, found, Interfaces.lost, Interfaces.delivered]
        omega
      · simp [source, found, Interfaces.lost, Interfaces.delivered]
        omega
    · simp [source, Interfaces.lost, Interfaces.delivered]

end Marks

section Rows

variable {o : Interfaces} {csvArray : List (TraceRow ι)} {done rest : List (TraceRow ι × List (TraceRow ι))}
  {c : TraceRow ι × List (TraceRow ι)}

theorem leavesMarked_lost (c : TraceRow ι × List (TraceRow ι)) : o.leavesMarked (c.1, o.lost c) = o.leaves c.1 := by
  by_cases source : c.1.iface = o.interfaceSource <;>
    simp [Interfaces.leavesMarked, Interfaces.leaves, Interfaces.lost, source]

/-- The row that a packet with this id arrives in is behind all that send one before it, so that
none of these is marked. -/
theorem entersMarked_lost (whole : withLater csvArray = done ++ c :: rest) (leaves : o.leaves c.1 = true)
    {d : TraceRow ι × List (TraceRow ι)} (earlier : d ∈ done) (same : d.1.id = c.1.id) :
    o.entersMarked (d.1, o.lost d) = o.enters d.1 := by
  have destination : c.1.iface = o.interfaceDestination := by
    simp only [Interfaces.leaves, Bool.and_eq_true, decide_eq_true_eq] at leaves
    exact leaves.2
  have found : d.2.any (o.receives d.1.id) = true :=
    any_eq_true.mpr ⟨c.1, mem_later whole earlier, by simp [Interfaces.receives, destination, same]⟩
  simp [Interfaces.entersMarked, Interfaces.lost, found]

theorem outnumbered_iff (whole : withLater csvArray = done ++ c :: rest) :
    o.Outnumbered (done.map fun d => (d.1, o.lost d)) (c.1, o.lost c) ↔
      (o.leaves c.1 = true → (done.map Prod.fst).countP (fun row => o.leaves row && row.id = c.1.id) <
        (done.map Prod.fst).countP (fun row => o.enters row && row.id = c.1.id)) := by
  rw [Interfaces.Outnumbered, leavesMarked_lost]
  refine forall_congr' fun leaves => ?_
  rw [countP_map, countP_map, countP_map, countP_map]
  have out : done.countP ((fun d => o.leavesMarked d && d.1.id = c.1.id) ∘ fun d => (d.1, o.lost d)) =
      done.countP ((fun row => o.leaves row && row.id = c.1.id) ∘ Prod.fst) := by
    refine countP_congr fun d _ => ?_
    simp [leavesMarked_lost]
  have into : done.countP ((fun d => o.entersMarked d && d.1.id = c.1.id) ∘ fun d => (d.1, o.lost d)) =
      done.countP ((fun row => o.enters row && row.id = c.1.id) ∘ Prod.fst) := by
    refine countP_congr fun d earlier => ?_
    by_cases same : d.1.id = c.1.id
    · simp [entersMarked_lost whole leaves earlier same]
    · simp [same]
  rw [out, into]

theorem outnumbered_rows (o : Interfaces) (csvArray : List (TraceRow ι)) :
    (∀ done c later, (markDroped o csvArray).csvArray = done ++ c :: later → o.Outnumbered ([] ++ done) c) ↔
      ∀ before row later, csvArray = before ++ row :: later → o.leaves row = true →
        before.countP (fun other => o.leaves other && other.id = row.id) <
          before.countP (fun other => o.enters other && other.id = row.id) := by
  rw [markDroped_eq, forall_split_map]
  refine Iff.trans ?_ forall_withLater
  refine forall_congr' fun done => forall_congr' fun c => forall_congr' fun rest => forall_congr' fun whole => ?_
  exact outnumbered_iff whole

theorem countP_leavesMarked (o : Interfaces) (csvArray : List (TraceRow ι)) :
    (markDroped o csvArray).csvArray.countP o.leavesMarked = csvArray.countP o.leaves := by
  have marked : (o.leavesMarked ∘ fun c : TraceRow ι × List (TraceRow ι) => (c.1, o.lost c)) = o.leaves ∘ Prod.fst :=
    funext leavesMarked_lost
  rw [markDroped_eq, countP_map, marked, ← countP_map, map_fst_withLater]

end Rows

namespace LossFlight

variable {o : Interfaces} {startTimeStamp : ℚ} {s : LossFlight ι} {before : List (TraceRow ι × Bool)}
  {c : TraceRow ι × Bool}

theorem step_cases (o : Interfaces) (startTimeStamp : ℚ) (s : LossFlight ι) (c : TraceRow ι × Bool) :
    (o.entersMarked c = false ∧ o.leavesMarked c = false ∧
        ∃ t, step o startTimeStamp s c = .ok t ∧ t.flight = s.flight) ∨
      (o.entersMarked c = true ∧ o.leavesMarked c = false ∧
        ∃ t, step o startTimeStamp s c = .ok t ∧ t.flight = s.flight.send c.1 (c.1.time - startTimeStamp)) ∨
      (o.entersMarked c = false ∧ o.leavesMarked c = true ∧
        step o startTimeStamp s c =
          (s.flight.arrive InFlight.removeEntry startTimeStamp c.1).map fun flight => { s with flight }) := by
  obtain ⟨row, droped⟩ := c
  simp only [Interfaces.entersMarked, Interfaces.leavesMarked, Interfaces.enters, Interfaces.leaves, step]
  cases droped with
  | true => exact .inl ⟨rfl, rfl, _, rfl, rfl⟩
  | false =>
    cases proto : row.proto with
    | none => exact .inl (by simp)
    | some number =>
      by_cases source : row.iface = o.interfaceSource
      · exact .inr (.inl (by simp [source]))
      · by_cases destination : row.iface = o.interfaceDestination
        · refine .inr (.inr ⟨by simp [source], by simp [← destination, source], ?_⟩)
          rw [if_neg Bool.false_ne_true, if_neg (Option.some_ne_none _), if_neg source, if_pos destination]
          cases s.flight.arrive InFlight.removeEntry startTimeStamp row <;> rfl
        · exact .inl (by simp [source, destination])

theorem Tracks.start : Tracks o [] ({} : LossFlight ι) := ⟨rfl, fun _ => rfl, rfl⟩

/-- A row that leaves the packets in flight as they are. -/
theorem Tracks.idle (tracks : s.Tracks o before) (stays : o.entersMarked c = false) (away : o.leavesMarked c = false)
    {t : LossFlight ι} (same : t.flight = s.flight) : t.Tracks o (before ++ [c]) where
  count := by rw [same, tracks.count]
  entries id := by
    rw [same, countP_append, countP_append, countP_singleton, countP_singleton, stays, away]
    simpa using tracks.entries id
  lines := by
    rw [same, tracks.lines, countP_append, countP_singleton, away]
    rfl

theorem Tracks.send (tracks : s.Tracks o before) (enters : o.entersMarked c = true) (away : o.leavesMarked c = false)
    {timeStampSrc : ℚ} {t : LossFlight ι} (sent : t.flight = s.flight.send c.1 timeStampSrc) :
    t.Tracks o (before ++ [c]) where
  count := by
    rw [sent, InFlight.send_packageInFly, length_append, Nat.cast_add, ← tracks.count]
    rfl
  entries id := by
    rw [sent, InFlight.send_packageInFly, countP_append, countP_append, countP_append,
      countP_singleton, countP_singleton, countP_singleton, enters, away]
    have entries := tracks.entries id
    simp
    omega
  lines := by
    rw [sent, countP_append, countP_singleton, away]
    exact tracks.lines

/-- A packet that is in flight arrives. -/
theorem Tracks.takes (tracks : s.Tracks o before) (stays : o.entersMarked c = false) (leaves : o.leavesMarked c = true)
    {flight : InFlight ι} {early late : List (InFlightEntry ι)} {pck : InFlightEntry ι}
    (takes : s.flight.Takes c.1 flight early pck late) : Tracks o (before ++ [c]) { s with flight } where
  count := by
    have count := tracks.count
    show flight.packageInFlyCount = flight.packageInFly.length
    rw [takes.count, count, takes.whole, takes.rest, length_append, length_append, length_cons]
    omega
  entries id := by
    have entries := tracks.entries id
    show flight.packageInFly.countP _ + _ = _
    rw [takes.rest, countP_append, countP_append, countP_append, countP_singleton, countP_singleton, stays, leaves]
    rw [takes.whole, countP_append, countP_cons, takes.own] at entries
    simp at entries ⊢
    omega
  lines := by
    obtain ⟨latency, lines⟩ := takes.line
    show flight.latencyLines.length = _
    rw [lines, length_append, tracks.lines, countP_append, countP_singleton, leaves]
    rfl

theorem Tracks.step (tracks : s.Tracks o before) (startTimeStamp : ℚ) (c : TraceRow ι × Bool) :
    (Component.Yields (fun t => t.flight.packageInFlyCount = t.flight.packageInFly.length) (s.step o startTimeStamp c) ↔
        o.Outnumbered before c) ∧
      (o.Outnumbered before c → Component.Yields (LossFlight.Tracks o (before ++ [c]))
        (s.step o startTimeStamp c)) := by
  rcases step_cases o startTimeStamp s c with
    ⟨stays, away, t, run, same⟩ | ⟨enters, away, t, run, sent⟩ | ⟨stays, leaves, run⟩
  · have next := tracks.idle stays away same
    rw [run]
    exact ⟨iff_of_true next.count fun leaves => absurd leaves (by simp [away]), fun _ => next⟩
  · have next := tracks.send enters away sent
    rw [run]
    exact ⟨iff_of_true next.count fun leaves => absurd leaves (by simp [away]), fun _ => next⟩
  · rw [run, Interfaces.Outnumbered, forall_prop_of_true leaves]
    have entries := tracks.entries c.1.id
    by_cases present : ∃ pck ∈ s.flight.packageInFly, pck.id = c.1.id
    · obtain ⟨flight, early, pck, late, arrive, takes⟩ := InFlight.arrive_found startTimeStamp present
      have next := tracks.takes stays leaves takes
      have positive : 0 < s.flight.packageInFly.countP (·.id = c.1.id) := by
        rw [countP_pos_iff]
        simpa using present
      rw [arrive]
      exact ⟨iff_of_true next.count (by omega), fun _ => next⟩
    · have missing : ∀ pck ∈ s.flight.packageInFly, pck.id ≠ c.1.id :=
        fun pck member same => present ⟨pck, member, same⟩
      have zero : s.flight.packageInFly.countP (·.id = c.1.id) = 0 := by
        rw [countP_eq_zero]
        simpa using missing
      have count := tracks.count
      rw [InFlight.arrive_missing _ _ missing]
      refine ⟨iff_of_false (fun short => ?_) (by omega), fun less => absurd less (by omega)⟩
      replace short : s.flight.packageInFlyCount - 1 = s.flight.packageInFly.length := short
      omega

/-- A row writes at most one line. -/
theorem step_line (o : Interfaces) (startTimeStamp : ℚ) (s : LossFlight ι) (c : TraceRow ι × Bool) :
    Component.Yields (·.flight.latencyLines.length ≤ s.flight.latencyLines.length + 1) (s.step o startTimeStamp c) := by
  rcases step_cases o startTimeStamp s c with ⟨-, -, t, run, same⟩ | ⟨-, -, t, run, sent⟩ | ⟨-, -, run⟩
  · rw [run]
    show t.flight.latencyLines.length ≤ _
    rw [same]
    omega
  · rw [run]
    show t.flight.latencyLines.length ≤ _
    rw [sent]
    exact Nat.le_succ _
  · rw [run]
    by_cases present : ∃ pck ∈ s.flight.packageInFly, pck.id = c.1.id
    · obtain ⟨flight, early, pck, late, arrive, takes⟩ := InFlight.arrive_found startTimeStamp present
      obtain ⟨latency, lines⟩ := takes.line
      rw [arrive]
      show flight.latencyLines.length ≤ _
      rw [lines, length_append, length_singleton]
    · rw [InFlight.arrive_missing _ _ fun pck member same => present ⟨pck, member, same⟩]
      exact Nat.le_succ _

theorem balanced_iff (o : Interfaces) (startTimeStamp : ℚ) (calls : List (TraceRow ι × Bool)) :
    Component.Along (LossFlight.step o startTimeStamp)
      (fun _ _ out => Component.Yields (fun t => t.flight.packageInFlyCount = t.flight.packageInFly.length) out)
      {} calls ↔
      ∀ done c later, calls = done ++ c :: later → o.Outnumbered ([] ++ done) c :=
  Component.along_yields_iff (I := Tracks o) (Q := o.Outnumbered)
    (fun _ _ c tracks => tracks.step startTimeStamp c) Tracks.start

theorem tracks_foldlM (startTimeStamp : ℚ) {calls : List (TraceRow ι × Bool)}
    (each : ∀ done c later, calls = done ++ c :: later → o.Outnumbered ([] ++ done) c) :
    Component.Yields (Tracks o ([] ++ calls)) (calls.foldlM (LossFlight.step o startTimeStamp) {}) :=
  Component.yields_foldlM (fun _ _ c tracks => (tracks.step startTimeStamp c).2) Tracks.start each

theorem lines_iff (startTimeStamp : ℚ) {calls : List (TraceRow ι × Bool)}
    (each : ∀ done c later, calls = done ++ c :: later → o.Outnumbered ([] ++ done) c) (count : ℕ) :
    Component.Yields (·.flight.latencyLines.length = count) (calls.foldlM (LossFlight.step o startTimeStamp) {}) ↔
      calls.countP o.leavesMarked = count := by
  have final := tracks_foldlM startTimeStamp each
  cases out : calls.foldlM (LossFlight.step o startTimeStamp) {} with
  | error e =>
    rw [out] at final
    exact final.elim
  | ok s =>
    rw [out] at final
    show s.flight.latencyLines.length = count ↔ _
    rw [final.lines, nil_append]

end LossFlight

/-- The two passes agree exactly if each row that a packet arrives in has one of its id before it
that no other arrival took, and there are as many such rows as packets that the first pass takes
for delivered. The sum of the counters and the single line for each row are always right. -/
theorem pcktInFlyFirstSendUDPInterval2sec_accounts_iff (o : Interfaces) (startTimeStamp : ℚ)
    (file : List (TraceRow ι)) :
    LossAccounts o startTimeStamp (rowsInterval2sec file) ↔
      (∀ before row later, rowsInterval2sec file = before ++ row :: later → o.leaves row = true →
        before.countP (fun other => o.leaves other && other.id = row.id) <
          before.countP (fun other => o.enters other && other.id = row.id)) ∧
      (rowsInterval2sec file).countP o.leaves = (withLater (rowsInterval2sec file)).countP o.delivered := by
  generalize rowsInterval2sec file = csvArray
  rw [← outnumbered_rows]
  constructor
  · intro accounts
    have each := (LossFlight.balanced_iff o startTimeStamp _).mp accounts.balanced
    have lines := (LossFlight.lines_iff startTimeStamp each _).mp accounts.lines
    rw [countP_leavesMarked, markDroped_eq] at lines
    exact ⟨each, lines⟩
  · rintro ⟨each, total⟩
    refine ⟨markDroped_sources csvArray, ?_,
      Component.along_of_invariant (I := fun _ => True) (fun s c _ => ?_) trivial _,
      (LossFlight.balanced_iff o startTimeStamp _).mpr each⟩
    · rw [LossFlight.lines_iff startTimeStamp each, countP_leavesMarked, total, markDroped_eq]
    · exact ⟨LossFlight.step_line o startTimeStamp s c, fun _ _ => trivial⟩

/-- Two packets with one id, of which one arrives. -/
theorem pcktInFlyFirstSendUDPInterval2sec_reused : let o : Interfaces := ⟨0, 1⟩
    let row (time : ℚ) (iface : Int) : TraceRow ℕ := { time, iface, proto := some 17, length := 100, id := 1 }
    let file := [{ row 0 0 with id := 0 }, row 1 0, row 2 0, row 3 1]
    (pcktInFlyFirstSendUDPInterval2sec o file).map (fun report =>
        (report.arrivedPackageCount, report.files.flight.latencyLines.length)) = .ok (2, 1) ∧
      ¬LossAccounts o 1 (rowsInterval2sec file) := by
  exact ⟨by decide +kernel, fun accounts => absurd accounts.lines (by decide +kernel)⟩

end MoonGen
