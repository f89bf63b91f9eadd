import Mathlib.Algebra.BigOperators.Group.List.Basic
import Mathlib.Tactic.FieldSimp
import Mathlib.Tactic.Linarith
import Mathlib.Tactic.Ring
import MoonGen.Analysis.Rows

namespace MoonGen

variable {ι : Type*}

structure BandwidthLine (ι : Type*) where
  ipId : ι
  timeCounter : ℚ
  bandwidth : ℚ
deriving DecidableEq

/-- The variables of the loop and the lines that are written. -/
structure BandwidthState (ι : Type*) where
  firstInIntervall : ℚ := 0
  timeCounter : ℚ := 0
  byteTransfared : ℚ := 0
  ipId : ι
  lines : List (BandwidthLine ι) := []
deriving DecidableEq

/-- The columns of the trace and the options of the script. -/
structure BandwidthOptions where
  interfaceDestination : Int
  bandWidthInterval : ℚ
  startTimeStamp : ℚ

/-- A line with what was transferred since the last one. -/
def BandwidthState.report (s : BandwidthState ι) (interval : ℚ) : BandwidthLine ι :=
  let actualBandwidth := s.byteTransfared / interval
  { ipId := s.ipId, timeCounter := s.timeCounter, bandwidth := actualBandwidth * 8 }

/-- The bytes of a frame without preamble, addresses, check sequence and gap. -/
def TraceRow.payload (row : TraceRow ι) : ℚ := row.length - 46

def BandwidthState.step (o : BandwidthOptions) (s : BandwidthState ι) (row : TraceRow ι) : BandwidthState ι :=
  let s := { s with ipId := row.id }
  match row.proto with
  | none => s
  | some _ =>
    if row.iface = o.interfaceDestination then
      let timeStampDest := row.time - o.startTimeStamp
      if timeStampDest - s.firstInIntervall < o.bandWidthInterval then
        { s with byteTransfared := s.byteTransfared + row.payload }
      else
        { s with
          lines := s.lines ++ [s.report o.bandWidthInterval]
          byteTransfared := 0
          timeCounter := s.timeCounter + o.bandWidthInterval
          firstInIntervall := timeStampDest }
    else s

/-- The lines for the rows that are looked at, and the last one behind the loop. -/
def bandwidthReport (interfaceDestination : Int) (bandWidthInterval : ℚ) :
    List (TraceRow ι) → List (BandwidthLine ι) × Option PythonError
  | [] => ([], some .indexError)
  | first :: rows =>
    let o := { interfaceDestination, bandWidthInterval, startTimeStamp := first.time }
    let s := (first :: rows).foldl (BandwidthState.step o) { ipId := first.id }
    (s.lines ++ [s.report bandWidthInterval], none)

def bandwidthUDPInterval2sec (interfaceDestination : Int) (bandWidthInterval : ℚ) (file : List (TraceRow ι)) :
    List (BandwidthLine ι) × Option PythonError :=
  bandwidthReport interfaceDestination bandWidthInterval (rowsInterval2sec file)

/-- The bytes that arrive at an interface. -/
def arrivedBytes (interfaceDestination : Int) (rows : List (TraceRow ι)) : ℚ :=
  ((rows.filter fun row => row.iface = interfaceDestination).map TraceRow.payload).sum

/-- The bits of all lines. -/
def reportedBits (bandWidthInterval : ℚ) (lines : List (BandwidthLine ι)) : ℚ :=
  (lines.map fun line => line.bandwidth * bandWidthInterval).sum

/-- The packets that no line has: those that come first behind an interval, and those with no
number in the column of the protocol. -/
def uncounted (o : BandwidthOptions) : ℚ → List (TraceRow ι) → List (TraceRow ι)
  | _, [] => []
  | firstInIntervall, row :: rows =>
    if row.iface = o.interfaceDestination then
      if row.proto = none then row :: uncounted o firstInIntervall rows
      else if row.time - o.startTimeStamp - firstInIntervall < o.bandWidthInterval then
        uncounted o firstInIntervall rows
      else row :: uncounted o (row.time - o.startTimeStamp) rows
    else uncounted o firstInIntervall rows

/-- The same for a whole trace. -/
def uncountedPackets (interfaceDestination : Int) (bandWidthInterval : ℚ) : List (TraceRow ι) → List (TraceRow ι)
  | [] => []
  | first :: rows =>
    uncounted { interfaceDestination, bandWidthInterval, startTimeStamp := first.time } 0 (first :: rows)

section Conservation

variable {o : BandwidthOptions} {s : BandwidthState ι} {row : TraceRow ι}

/-- The bits that are reported or still to be reported. -/
def BandwidthState.bits (s : BandwidthState ι) (interval : ℚ) : ℚ :=
  reportedBits interval s.lines + 8 * s.byteTransfared

theorem BandwidthState.report_bits (positive : 0 < o.bandWidthInterval) :
    (s.report o.bandWidthInterval).bandwidth * o.bandWidthInterval = 8 * s.byteTransfared := by
  rw [report]
  field_simp

theorem reportedBits_concat (interval : ℚ) (lines : List (BandwidthLine ι)) (line : BandwidthLine ι) :
    reportedBits interval (lines ++ [line]) = reportedBits interval lines + line.bandwidth * interval := by
  simp [reportedBits]

theorem arrivedBytes_cons (interfaceDestination : Int) (row : TraceRow ι) (rows : List (TraceRow ι)) :
    arrivedBytes interfaceDestination (row :: rows) =
      (if row.iface = interfaceDestination then row.payload else 0) + arrivedBytes interfaceDestination rows := by
  rw [arrivedBytes, arrivedBytes, List.filter_cons]
  simp only [decide_eq_true_eq]
  split
  · rw [List.map_cons, List.sum_cons]
  · rw [zero_add]

theorem BandwidthState.step_cases (positive : 0 < o.bandWidthInterval) (s : BandwidthState ι) (row : TraceRow ι)
    (rows : List (TraceRow ι)) :
    ∃ got lost : ℚ, (s.step o row).bits o.bandWidthInterval = s.bits o.bandWidthInterval + 8 * got ∧
      ((uncounted o s.firstInIntervall (row :: rows)).map TraceRow.payload).sum =
        lost + ((uncounted o (s.step o row).firstInIntervall rows).map TraceRow.payload).sum ∧
      got + lost = if row.iface = o.interfaceDestination then row.payload else 0 := by
  by_cases dest : row.iface = o.interfaceDestination
  · cases proto : row.proto with
    | none =>
      refine ⟨0, row.payload, ?_, ?_, ?_⟩
      · simp [step, proto, bits]
      · simp [step, proto, uncounted, dest]
      · rw [if_pos dest, zero_add]
    | some p =>
      by_cases early : row.time - o.startTimeStamp - s.firstInIntervall < o.bandWidthInterval
      · refine ⟨row.payload, 0, ?_, ?_, ?_⟩
        · simp only [step, proto, if_pos dest, if_pos early, bits]
          ring
        · simp [step, proto, uncounted, dest, early]
        · rw [if_pos dest, add_zero]
      · refine ⟨0, row.payload, ?_, ?_, ?_⟩
        · simp only [step, proto, if_pos dest, if_neg early, bits, reportedBits_concat, report_bits positive]
        · simp [step, proto, uncounted, dest, early]
        · rw [if_pos dest, zero_add]
  · refine ⟨0, 0, ?_, ?_, ?_⟩
    · cases proto : row.proto <;> simp [step, proto, dest, bits]
    · cases proto : row.proto <;> simp [step, proto, dest, uncounted]
    · rw [if_neg dest, zero_add]

/-- What arrives is reported, to be reported, or lost. -/
theorem BandwidthState.bits_foldl (positive : 0 < o.bandWidthInterval) (s : BandwidthState ι)
    (rows : List (TraceRow ι)) :
    (rows.foldl (step o) s).bits o.bandWidthInterval +
        8 * ((uncounted o s.firstInIntervall rows).map TraceRow.payload).sum =
      s.bits o.bandWidthInterval + 8 * arrivedBytes o.interfaceDestination rows := by
  induction rows generalizing s with
  | nil => simp [uncounted, arrivedBytes]
  | cons row rows ih =>
    obtain ⟨got, lost, counted, missing, parts⟩ := step_cases positive s row rows
    have later := ih (s.step o row)
    rw [List.foldl_cons, missing, arrivedBytes_cons, ← parts]
    linarith

end Conservation

/-- The lines add up to what arrived exactly when the packets that no line has add up to
nothing. -/
theorem bandwidthReport_conserves_iff (interfaceDestination : Int) (bandWidthInterval : ℚ)
    (positive : 0 < bandWidthInterval) (rows : List (TraceRow ι)) :
    reportedBits bandWidthInterval (bandwidthReport interfaceDestination bandWidthInterval rows).1 =
        8 * arrivedBytes interfaceDestination rows ↔
      ((uncountedPackets interfaceDestination bandWidthInterval rows).map TraceRow.payload).sum = 0 := by
  cases rows with
  | nil => simp [bandwidthReport, reportedBits, arrivedBytes, uncountedPackets]
  | cons first rows =>
    have all := @BandwidthState.bits_foldl _ { interfaceDestination, bandWidthInterval, startTimeStamp := first.time }
      positive { ipId := first.id } (first :: rows)
    have start : BandwidthState.bits { ipId := first.id } bandWidthInterval = 0 := by
      simp [BandwidthState.bits, reportedBits]
    simp only [start, zero_add] at all
    rw [bandwidthReport, uncountedPackets, ← all, reportedBits_concat,
      @BandwidthState.report_bits _ { interfaceDestination, bandWidthInterval, startTimeStamp := first.time } _
        positive]
    constructor
    · intro same
      rw [BandwidthState.bits] at same
      linarith
    · intro nothing
      rw [nothing, mul_zero, add_zero, BandwidthState.bits]

theorem bandwidthReport_conserves_one_interval :
    reportedBits 2 (bandwidthReport 1 2 [⟨5, 1, some 17, 146, "a"⟩, ⟨6, 1, some 17, 246, "b"⟩]).1 = 2400 :=
  ((bandwidthReport_conserves_iff 1 2 (by decide) [⟨5, 1, some 17, 146, "a"⟩, ⟨6, 1, some 17, 246, "b"⟩]).mpr
    (by decide +kernel)).trans (by decide +kernel)

/-- Of two packets at the destination, the second comes behind the interval of the first and is
in no line. -/
theorem bandwidthUDPInterval2sec_loses : let file : List (TraceRow String) :=
      [⟨0, 0, some 17, 100, "a"⟩, ⟨1, 1, some 17, 100, "a"⟩, ⟨2, 1, some 17, 100, "b"⟩]
    file.Pairwise (fun row later => row.time ≤ later.time) ∧
      (bandwidthUDPInterval2sec 1 1 file).1 = [⟨"b", 0, 432⟩, ⟨"b", 1, 0⟩] ∧
      reportedBits 1 (bandwidthUDPInterval2sec 1 1 file).1 = 432 ∧
      8 * arrivedBytes 1 (rowsInterval2sec file) = 864 := by
  decide +kernel

end MoonGen
