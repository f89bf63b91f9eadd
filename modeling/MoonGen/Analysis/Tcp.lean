import MoonGen.Analysis.InFlight
import MoonGen.Lib.Machine

namespace MoonGen

open List

variable {ι : Type*} [DecidableEq ι]

/-- What the three functions for TCP keep. -/
structure TcpFlight (ι : Type*) where
  sequenceSend : List ι := []
  sequenceDrop : List ι := []
  flight : InFlight ι

/-- Where the three functions differ: the counter at the start, the time of a packet and whether
it is left out, given the rows behind its first one, and what removes an entry. -/
structure TcpScript (ι : Type*) where
  packageInFlyCount : Int
  timeStamp : TraceRow ι → List (TraceRow ι) → ℚ
  droped : TraceRow ι → List (TraceRow ι) → Bool
  remove : InFlightEntry ι → List (InFlightEntry ι) → Except PythonError (List (InFlightEntry ι))

def pcktInFlyFirstSendTCP : TcpScript ι where
  packageInFlyCount := 0
  timeStamp row _ := row.time
  droped _ _ := false
  remove := InFlight.removeEntry

/-- The time is that of the last row that sends the packet. The entry is to be removed from the
counter, which is no list. -/
def pcktInFlyLastSendTCP (o : Interfaces) : TcpScript ι where
  packageInFlyCount := 0
  timeStamp row later := later.foldl (fun time row' => if o.sends row.id row' then row'.time else time) row.time
  droped _ _ := false
  remove _ _ := .error .attributeError

/-- A packet that is sent again is left out. -/
def pcktInFlyNoDropTCP (o : Interfaces) : TcpScript ι where
  packageInFlyCount := -1
  timeStamp row _ := row.time
  droped row later := later.any (o.sends row.id)
  remove := InFlight.removeEntry

/-- The body of the loop, for a row and the rows behind it. -/
def TcpScript.step (script : TcpScript ι) (o : Interfaces) (startTimeStamp : ℚ) (s : TcpFlight ι) :
    TraceRow ι × List (TraceRow ι) → Except PythonError (TcpFlight ι)
  | (row, later) =>
    if row.id ∉ s.sequenceSend ∧ row.iface = o.interfaceSource ∧ row.id ∉ s.sequenceDrop then
      let s := { s with sequenceSend := s.sequenceSend ++ [row.id] }
      if script.droped row later then .ok { s with sequenceDrop := s.sequenceDrop ++ [row.id] }
      else .ok { s with flight := s.flight.send row (script.timeStamp row later - startTimeStamp) }
    else if row.id ∈ s.sequenceSend ∧ row.iface = o.interfaceDestination ∧ row.id ∉ s.sequenceDrop then do
      let flight ← s.flight.arrive script.remove startTimeStamp row
      return { s with flight }
    else .ok s

/-- The whole script, which reads the time of the first row. -/
def TcpScript.run (script : TcpScript ι) (o : Interfaces) (rows : List (TraceRow ι)) :
    Except PythonError (InFlight ι) := do
  let first ← (rows.head?).elim (.error .indexError) .ok
  let s ← (withLater rows).foldlM (script.step o first.time)
    { flight := { packageInFlyCount := script.packageInFlyCount } }
  return s.flight

/-- The counters agree with the list, and no packet has two lines of latency. -/
def InFlight.Balanced (s : InFlight ι) : Prop :=
  s.packageInFlyCount = s.packageInFly.length ∧ 0 ≤ s.packageInFlyCount ∧
    s.byteInFlyCount = bytes s.packageInFly ∧ (s.latencyLines.map Prod.fst).Nodup

/-- The property after every row of a trace. -/
def TcpScript.Balances (script : TcpScript ι) (o : Interfaces) (rows : List (TraceRow ι)) : Prop :=
  match rows with
  | [] => True
  | first :: _ =>
    Component.Along (script.step o first.time) (fun _ _ out => Component.Yields (·.flight.Balanced) out)
      { flight := { packageInFlyCount := script.packageInFlyCount } } (withLater rows)

instance (s : InFlight ι) : Decidable s.Balanced := inferInstanceAs (Decidable (_ ∧ _))

instance (script : TcpScript ι) (o : Interfaces) (rows : List (TraceRow ι)) : Decidable (script.Balances o rows) :=
  match rows with
  | [] => isTrue trivial
  | first :: later =>
    inferInstanceAs (Decidable (Component.Along (script.step o first.time)
      (fun _ _ out => Component.Yields (·.flight.Balanced) out)
      { flight := { packageInFlyCount := script.packageInFlyCount } } (withLater (first :: later))))

/-- A packet is in one place only, and was sent. -/
structure TcpFlight.Once (s : TcpFlight ι) : Prop where
  nodup : s.flight.ids.Nodup
  sent : ∀ id ∈ s.flight.ids, id ∈ s.sequenceSend

variable {s : TcpFlight ι}

omit [DecidableEq ι] in
theorem TcpFlight.Once.send {row : TraceRow ι} (once : s.Once) (new : row.id ∉ s.sequenceSend) (timeStampSrc : ℚ) :
    Once { s with sequenceSend := s.sequenceSend ++ [row.id], flight := s.flight.send row timeStampSrc } := by
  have perm := s.flight.ids_send row timeStampSrc
  refine ⟨perm.nodup_iff.mpr (nodup_cons.mpr ⟨fun member => new (once.sent _ member), once.nodup⟩), ?_⟩
  intro id member
  rcases mem_cons.mp (perm.mem_iff.mp member) with rfl | member
  · exact mem_append_right _ (mem_singleton_self _)
  · exact mem_append_left _ (once.sent id member)

variable {startTimeStamp : ℚ}

theorem TcpFlight.Once.arrive {row : TraceRow ι} (once : s.Once)
    {remove : InFlightEntry ι → List (InFlightEntry ι) → Except PythonError (List (InFlightEntry ι))}
    (removes : ∀ pck entries rest, remove pck entries = .ok rest → rest = entries.erase pck)
    {flight : InFlight ι} (run : s.flight.arrive remove startTimeStamp row = .ok flight) : Once { s with flight } := by
  by_cases present : ∃ pck ∈ s.flight.packageInFly, pck.id = row.id
  · obtain ⟨pck, found⟩ := InFlight.find_of_present present
    obtain ⟨early, late, takes⟩ := InFlight.takes_of_arrive removes found run
    have perm := takes.ids_perm
    exact ⟨perm.nodup_iff.mpr once.nodup, fun id member => once.sent id (perm.mem_iff.mp member)⟩
  · rw [InFlight.arrive_missing _ _ fun pck member same => present ⟨pck, member, same⟩] at run
    cases run
    exact ⟨once.nodup, once.sent⟩

variable {script : TcpScript ι}

theorem TcpFlight.Once.step {o : Interfaces} {t : TcpFlight ι} {c : TraceRow ι × List (TraceRow ι)} (once : s.Once)
    (removes : ∀ pck entries rest, script.remove pck entries = .ok rest → rest = entries.erase pck)
    (run : script.step o startTimeStamp s c = .ok t) : t.Once := by
  rw [TcpScript.step] at run
  split at run
  case isTrue new =>
    split at run
    case isTrue droped =>
      cases run
      exact ⟨once.nodup, fun id member => mem_append_left _ (once.sent id member)⟩
    case isFalse whole =>
      cases run
      exact once.send new.1 _
  case isFalse =>
    split at run
    case isTrue old =>
      cases result : s.flight.arrive script.remove startTimeStamp c.1 with
      | error e =>
        rw [result] at run
        cases run
      | ok flight =>
        rw [result] at run
        cases run
        exact once.arrive removes result
    case isFalse =>
      cases run
      exact once

/-- The lines of latency behind a row, also if the row ends the script. -/
def TcpFlight.latencyFile (o : Interfaces) (startTimeStamp : ℚ) (s : TcpFlight ι) (row : TraceRow ι) :
    List (ι × ℚ × ℚ) :=
  if row.id ∈ s.sequenceSend ∧ row.iface = o.interfaceDestination ∧ row.id ∉ s.sequenceDrop then
    (s.flight.written startTimeStamp row).latencyLines
  else s.flight.latencyLines

/-- A packet on the list has no line yet, so that its arrival adds the only one. -/
theorem TcpFlight.Once.latencyFile (once : s.Once) (o : Interfaces) (startTimeStamp : ℚ)
    (row : TraceRow ι) : ((s.latencyFile o startTimeStamp row).map Prod.fst).Nodup := by
  have lines : (s.flight.latencyLines.map Prod.fst).Nodup := (nodup_append.mp once.nodup).2.1
  unfold TcpFlight.latencyFile
  split
  · cases found : s.flight.packageInFly.find? fun pck => pck.id = row.id with
    | none =>
      simp only [InFlight.written, found]
      exact lines
    | some pck =>
      have own : pck.id = row.id := by simpa using find?_some found
      have flying : row.id ∈ s.flight.packageInFly.map InFlightEntry.id :=
        own ▸ mem_map_of_mem (mem_of_find?_eq_some found)
      have apart := (nodup_append.mp once.nodup).2.2 row.id flying
      rw [InFlight.written_latencyLines found, map_append, map_singleton]
      exact nodup_append.mpr ⟨lines, nodup_singleton _, by
        rintro id member _ last rfl
        exact apart id member (mem_singleton.mp last).symm⟩
  · exact lines

/-- A row that does not end the script leaves those lines. -/
theorem TcpScript.step_latencyLines {o : Interfaces} {t : TcpFlight ι}
    {c : TraceRow ι × List (TraceRow ι)} (run : script.step o startTimeStamp s c = .ok t) :
    t.flight.latencyLines = s.latencyFile o startTimeStamp c.1 := by
  rw [TcpScript.step] at run
  unfold TcpFlight.latencyFile
  split at run
  case isTrue new =>
    rw [if_neg fun old => new.1 old.1]
    split at run <;> cases run <;> rfl
  case isFalse =>
    split at run
    case isTrue old =>
      rw [if_pos old]
      cases result : s.flight.arrive script.remove startTimeStamp c.1 with
      | error e =>
        rw [result] at run
        cases run
      | ok flight =>
        rw [result] at run
        cases run
        exact InFlight.arrive_latencyLines result
    case isFalse stays =>
      rw [if_neg stays]
      cases run
      rfl

/-- No packet has two lines of latency, whatever the trace, and whether a row ends the script
or not. -/
theorem pcktInFlyTCP_latency_once (o : Interfaces) (startTimeStamp : ℚ) (rows : List (TraceRow ι))
    (member : script ∈ [pcktInFlyFirstSendTCP, pcktInFlyLastSendTCP o, pcktInFlyNoDropTCP o]) :
    Component.Along (script.step o startTimeStamp)
      (fun s c out => ((s.latencyFile o startTimeStamp c.1).map Prod.fst).Nodup ∧
        ∀ t, out = .ok t → t.flight.latencyLines = s.latencyFile o startTimeStamp c.1)
      { flight := { packageInFlyCount := script.packageInFlyCount } } (withLater rows) := by
  have removes : ∀ pck entries rest, script.remove pck entries = .ok rest → rest = entries.erase pck := by
    simp only [mem_cons, not_mem_nil, or_false] at member
    rcases member with rfl | rfl | rfl
    · exact InFlight.removeEntry_removes
    · exact fun _ _ _ removed => nomatch removed
    · exact InFlight.removeEntry_removes
  have start : TcpFlight.Once ({ flight := { packageInFlyCount := script.packageInFlyCount } } : TcpFlight ι) :=
    ⟨nodup_nil, forall_mem_nil _⟩
  exact Component.along_of_invariant (fun s c once => ⟨⟨once.latencyFile o startTimeStamp c.1,
    fun t run => TcpScript.step_latencyLines run⟩, fun t run => once.step removes run⟩) start _

/-- A packet that is sent twice and arrives twice. -/
theorem pcktInFlyTCP_latency_once_again :
    pcktInFlyFirstSendTCP ∈
      [(pcktInFlyFirstSendTCP : TcpScript Nat), pcktInFlyLastSendTCP ⟨0, 1⟩, pcktInFlyNoDropTCP ⟨0, 1⟩] ∧
    Component.Along ((pcktInFlyFirstSendTCP : TcpScript Nat).step ⟨0, 1⟩ 0)
      (fun s c out => ((s.latencyFile ⟨0, 1⟩ 0 c.1).map Prod.fst).Nodup ∧
        ∀ t, out = .ok t → t.flight.latencyLines = s.latencyFile ⟨0, 1⟩ 0 c.1)
      { flight := { packageInFlyCount := (pcktInFlyFirstSendTCP : TcpScript Nat).packageInFlyCount } }
      (withLater [⟨0, 0, some 6, 60, 7⟩, ⟨1, 0, some 6, 60, 7⟩, ⟨2, 1, some 6, 60, 7⟩, ⟨3, 1, some 6, 60, 7⟩]) :=
  ⟨mem_cons_self, pcktInFlyTCP_latency_once ⟨0, 1⟩ 0 _ mem_cons_self⟩

/-- The rows from the first one on that sends a packet. -/
def fromSend (o : Interfaces) (id : ι) (rows : List (TraceRow ι)) : List (TraceRow ι) :=
  rows.dropWhile fun row => !o.sends id row

/-- The row that sends a packet, from then on until the packet arrives. -/
def pending (o : Interfaces) (id : ι) (rows : List (TraceRow ι)) : List (TraceRow ι) :=
  match fromSend o id rows with
  | [] => []
  | first :: behind => if behind.any (o.receives id) then [] else [first]

/-- A row is the arrival of a packet that was sent. -/
def Interfaces.Arrives (o : Interfaces) (before : List (TraceRow ι)) (row : TraceRow ι) : Prop :=
  fromSend o row.id before ≠ [] ∧ row.iface = o.interfaceDestination

/-- A packet is still in flight when the row arrives, which has its length. -/
def Interfaces.Awaits (o : Interfaces) (before : List (TraceRow ι)) (row : TraceRow ι) : Prop :=
  ∃ first, pending o row.id before = [first] ∧ row.length = first.length

section Pending

variable {o : Interfaces} {id : ι} {rows : List (TraceRow ι)} {row : TraceRow ι}

theorem fromSend_concat : fromSend o id (rows ++ [row]) =
    if fromSend o id rows = [] then if o.sends id row then [row] else [] else fromSend o id rows ++ [row] := by
  have parts : fromSend o id (rows ++ [row]) =
      if (fromSend o id rows).isEmpty then fromSend o id [row] else fromSend o id rows ++ [row] := dropWhile_append
  rw [parts]
  by_cases fresh : fromSend o id rows = []
  · rw [if_pos fresh, if_pos (List.isEmpty_iff.mpr fresh), fromSend]
    cases sends : o.sends id row <;> simp [sends]
  · rw [if_neg fresh, if_neg (mt List.isEmpty_iff.mp fresh)]

theorem pending_concat_of_ne (other : row.id ≠ id) : pending o id (rows ++ [row]) = pending o id rows := by
  have silent : o.sends id row = false := by simp [Interfaces.sends, other]
  have quiet : o.receives id row = false := by simp [Interfaces.receives, other]
  rw [pending, pending, fromSend_concat, silent]
  cases fromSend o id rows with
  | nil => simp
  | cons first behind => simp [quiet]

theorem pending_concat_of_fresh (fresh : fromSend o row.id rows = []) :
    pending o row.id (rows ++ [row]) = if row.iface = o.interfaceSource then [row] else [] := by
  rw [pending, fromSend_concat, if_pos fresh]
  by_cases source : row.iface = o.interfaceSource <;> simp [Interfaces.sends, source]

theorem pending_concat_of_sent (sent : fromSend o row.id rows ≠ []) :
    pending o row.id (rows ++ [row]) = if row.iface = o.interfaceDestination then [] else pending o row.id rows := by
  rw [pending, pending, fromSend_concat, if_neg sent]
  cases whole : fromSend o row.id rows with
  | nil => exact absurd whole sent
  | cons first behind =>
    by_cases destination : row.iface = o.interfaceDestination <;> simp [Interfaces.receives, destination]

theorem fromSend_concat_ne_nil (sent : fromSend o id rows ≠ []) : fromSend o id (rows ++ [row]) ≠ [] := by
  rw [fromSend_concat, if_neg sent]
  simp

/-- A packet that arrived does not come back. -/
theorem pending_concat_of_arrived (sent : fromSend o id rows ≠ []) (arrived : pending o id rows = []) :
    pending o id (rows ++ [row]) = [] := by
  by_cases same : row.id = id
  · subst same
    rw [pending_concat_of_sent sent, arrived, ite_self]
  · rw [pending_concat_of_ne same, arrived]

theorem pending_cases (o : Interfaces) (id : ι) (rows : List (TraceRow ι)) :
    pending o id rows = [] ∨ ∃ first, pending o id rows = [first] := by
  rw [pending]
  cases fromSend o id rows with
  | nil => exact .inl rfl
  | cons first behind =>
    cases arrived : behind.any (o.receives id)
    · exact .inr ⟨first, by simp [arrived]⟩
    · exact .inl (by simp [arrived])

end Pending

/-- The state behind some rows, if the property held so far and no packet was left out. -/
structure TcpFlight.Tracks (o : Interfaces) (rows : List (TraceRow ι)) (s : TcpFlight ι) : Prop where
  drops : s.sequenceDrop = []
  sent : ∀ id, id ∈ s.sequenceSend ↔ fromSend o id rows ≠ []
  flying : ∀ id, (s.flight.packageInFly.filter fun pck => pck.id = id).map InFlightEntry.packet = pending o id rows
  lines : ∀ line ∈ s.flight.latencyLines, fromSend o line.1 rows ≠ [] ∧ pending o line.1 rows = []
  balanced : s.flight.Balanced

namespace TcpFlight

variable {o : Interfaces} {rows : List (TraceRow ι)} {s : TcpFlight ι} {row : TraceRow ι}

theorem Tracks.start : Tracks o [] ({ flight := {} } : TcpFlight ι) where
  drops := rfl
  sent _ := iff_of_false not_mem_nil fun nonempty => nonempty rfl
  flying _ := rfl
  lines _ member := absurd member not_mem_nil
  balanced := ⟨rfl, le_rfl, rfl, nodup_nil⟩
section
variable (tracks : s.Tracks o rows)

include tracks

theorem Tracks.lines_concat :
    ∀ line ∈ s.flight.latencyLines, fromSend o line.1 (rows ++ [row]) ≠ [] ∧ pending o line.1 (rows ++ [row]) = [] := by
  intro line member
  obtain ⟨sent, arrived⟩ := tracks.lines line member
  exact ⟨fromSend_concat_ne_nil sent, pending_concat_of_arrived sent arrived⟩

theorem Tracks.sent_concat (old : fromSend o row.id rows = [] → row.iface ≠ o.interfaceSource) (id : ι) :
    id ∈ s.sequenceSend ↔ fromSend o id (rows ++ [row]) ≠ [] := by
  rw [tracks.sent, fromSend_concat]
  by_cases fresh : fromSend o id rows = []
  · rw [if_pos fresh]
    have silent : o.sends id row = false := by
      by_contra sends
      simp only [Interfaces.sends, Bool.not_eq_false, Bool.and_eq_true, decide_eq_true_eq] at sends
      obtain ⟨source, rfl⟩ := sends
      exact old fresh source
    simp [fresh, silent]
  · simp [fresh]

/-- A row that neither sends a packet for the first time nor is the arrival of one. -/
theorem Tracks.idle (old : fromSend o row.id rows = [] → row.iface ≠ o.interfaceSource)
    (away : fromSend o row.id rows ≠ [] → row.iface ≠ o.interfaceDestination) : s.Tracks o (rows ++ [row]) where
  drops := tracks.drops
  sent := tracks.sent_concat old
  flying id := by
    rw [tracks.flying]
    by_cases same : row.id = id
    · subst same
      by_cases fresh : fromSend o row.id rows = []
      · rw [pending_concat_of_fresh fresh, if_neg (old fresh), pending, fresh]
      · rw [pending_concat_of_sent fresh, if_neg (away fresh)]
    · rw [pending_concat_of_ne same]
  lines := tracks.lines_concat
  balanced := tracks.balanced

/-- The first row that sends a packet. -/
theorem Tracks.send (fresh : fromSend o row.id rows = []) (source : row.iface = o.interfaceSource) (timeStampSrc : ℚ) :
    Tracks o (rows ++ [row])
      { s with sequenceSend := s.sequenceSend ++ [row.id], flight := s.flight.send row timeStampSrc } where
  drops := tracks.drops
  sent id := by
    rw [mem_append, mem_singleton, tracks.sent, fromSend_concat]
    by_cases same : id = row.id
    · subst same
      simp [fresh, Interfaces.sends, source]
    · have silent : o.sends id row = false := by simp [Interfaces.sends, Ne.symm same]
      by_cases new : fromSend o id rows = [] <;> simp [new, silent, same]
  flying id := by
    rw [InFlight.send_packageInFly, filter_append, map_append, tracks.flying]
    by_cases same : row.id = id
    · subst same
      rw [pending_concat_of_fresh fresh, if_pos source, pending, fresh]
      simp
    · rw [pending_concat_of_ne same]
      simp [same]
  lines := tracks.lines_concat
  balanced := by
    obtain ⟨count, positive, bytes, nodup⟩ := tracks.balanced
    refine ⟨?_, ?_, ?_, nodup⟩
    · simp [InFlight.send, count]
    · show 0 ≤ s.flight.packageInFlyCount + 1
      omega
    · rw [InFlight.send_packageInFly, InFlight.bytes_append, ← bytes]
      simp [InFlight.send, InFlight.bytes]
end

variable {first : TraceRow ι} {flight : InFlight ι} {early late : List (InFlightEntry ι)} {pck : InFlightEntry ι}

/-- The entry that an arrival takes is the only one for the packet. -/
theorem Tracks.taken (tracks : s.Tracks o rows) (waiting : pending o row.id rows = [first])
    (takes : s.flight.Takes row flight early pck late) :
    pck.packet = first ∧ ∀ other ∈ early ++ late, other.id ≠ row.id := by
  have before : (early.filter fun pck => pck.id = row.id) = [] := by
    rw [filter_eq_nil_iff]
    intro other member
    simpa using takes.others other member
  have flying := tracks.flying row.id
  rw [waiting, takes.whole, filter_append, before, nil_append,
    filter_cons_of_pos (by simpa using takes.own), map_cons] at flying
  obtain ⟨same, rest⟩ := List.cons.inj flying
  refine ⟨same, fun other member => ?_⟩
  rcases mem_append.mp member with early | late
  · exact takes.others other early
  · simpa using filter_eq_nil_iff.mp (map_eq_nil_iff.mp rest) other late

theorem Tracks.present (tracks : s.Tracks o rows) {id : ι} (waiting : pending o id rows = [first]) :
    ∃ pck ∈ s.flight.packageInFly, pck.id = id := by
  have flying := tracks.flying id
  rw [waiting] at flying
  obtain ⟨pck, member, -⟩ := mem_map.mp (flying ▸ mem_singleton_self first)
  obtain ⟨member, same⟩ := mem_filter.mp member
  exact ⟨pck, member, by simpa using same⟩

theorem Tracks.missing (tracks : s.Tracks o rows) {id : ι} (arrived : pending o id rows = []) :
    ∀ pck ∈ s.flight.packageInFly, pck.id ≠ id := by
  intro pck member
  have flying := tracks.flying id
  rw [arrived, map_eq_nil_iff, filter_eq_nil_iff] at flying
  simpa using flying pck member

/-- The arrival of a packet that is still in flight leaves the counters right if it has the
length of the packet that was sent. -/
theorem Tracks.takes_balanced (tracks : s.Tracks o rows) (waiting : pending o row.id rows = [first])
    (takes : s.flight.Takes row flight early pck late) : flight.Balanced ↔ row.length = first.length := by
  obtain ⟨count, positive, bytes, nodup⟩ := tracks.balanced
  obtain ⟨same, -⟩ := tracks.taken waiting takes
  obtain ⟨latency, lines⟩ := takes.line
  have fresh : row.id ∉ s.flight.latencyLines.map Prod.fst := by
    intro member
    obtain ⟨line, there, same⟩ := mem_map.mp member
    have arrived := (tracks.lines line there).2
    rw [same, waiting] at arrived
    cases arrived
  have lengths : s.flight.packageInFly.length = flight.packageInFly.length + 1 := by
    rw [takes.whole, takes.rest, length_append, length_append, length_cons, Nat.add_assoc]
  have sums : InFlight.bytes s.flight.packageInFly = InFlight.bytes flight.packageInFly + first.length := by
    rw [takes.whole, takes.rest, InFlight.bytes_append, InFlight.bytes_append, InFlight.bytes_cons, same]
    omega
  have once : (flight.latencyLines.map Prod.fst).Nodup := by
    rw [lines, map_append, map_singleton]
    exact List.Nodup.append nodup (nodup_singleton _) (by simpa using fresh)
  have down := takes.count
  have less := takes.bytes
  constructor
  · rintro ⟨-, -, bytes', -⟩
    omega
  · intro equal
    exact ⟨by omega, by omega, by omega, once⟩

theorem Tracks.takes (tracks : s.Tracks o rows) (arrives : o.Arrives rows row)
    (waiting : pending o row.id rows = [first]) (takes : s.flight.Takes row flight early pck late)
    (equal : row.length = first.length) : Tracks o (rows ++ [row]) { s with flight } where
  drops := tracks.drops
  sent := tracks.sent_concat fun new => absurd new arrives.1
  flying id := by
    show (flight.packageInFly.filter fun pck => pck.id = id).map InFlightEntry.packet = _
    rw [takes.rest]
    by_cases same : row.id = id
    · subst same
      have empty : ((early ++ late).filter fun pck => pck.id = row.id) = [] := by
        rw [filter_eq_nil_iff]
        intro other member
        simpa using (tracks.taken waiting takes).2 other member
      rw [empty, pending_concat_of_sent arrives.1, if_pos arrives.2, map_nil]
    · have flying := tracks.flying id
      rw [takes.whole, filter_append, filter_cons_of_neg (by simpa [takes.own] using same),
        ← filter_append] at flying
      rw [flying, pending_concat_of_ne same]
  lines := by
    intro line member
    obtain ⟨latency, lines⟩ := takes.line
    rw [lines, mem_append, mem_singleton] at member
    rcases member with before | rfl
    · exact tracks.lines_concat line before
    · exact ⟨fromSend_concat_ne_nil arrives.1, by rw [pending_concat_of_sent arrives.1, if_pos arrives.2]⟩
  balanced := (tracks.takes_balanced waiting takes).mpr equal

end TcpFlight

namespace TcpScript

variable {script : TcpScript ι} {o : Interfaces} {startTimeStamp : ℚ} {rows later : List (TraceRow ι)} {s : TcpFlight ι}
  {row : TraceRow ι}

theorem step_cases (script : TcpScript ι) (whole : ∀ row later, script.droped row later = false)
    (tracks : s.Tracks o rows) (row : TraceRow ι) (later : List (TraceRow ι)) :
    (o.Arrives rows row ∧
        script.step o startTimeStamp s (row, later) =
          (s.flight.arrive script.remove startTimeStamp row).map fun flight => { s with flight }) ∨
      (¬o.Arrives rows row ∧
        ∃ t, script.step o startTimeStamp s (row, later) = .ok t ∧ t.Tracks o (rows ++ [row])) := by
  have kept : row.id ∉ s.sequenceDrop := by rw [tracks.drops]; exact not_mem_nil
  by_cases fresh : fromSend o row.id rows = []
  · have new : row.id ∉ s.sequenceSend := fun member => (tracks.sent row.id).mp member fresh
    refine .inr ⟨fun both => both.1 fresh, ?_⟩
    by_cases source : row.iface = o.interfaceSource
    · refine ⟨_, ?_, tracks.send fresh source (script.timeStamp row later - startTimeStamp)⟩
      rw [step, if_pos ⟨new, source, kept⟩, whole, if_neg Bool.false_ne_true]
    · refine ⟨s, ?_, tracks.idle (fun _ => source) fun sent => absurd fresh sent⟩
      rw [step, if_neg fun both => source both.2.1, if_neg fun both => new both.1]
  · have old : row.id ∈ s.sequenceSend := (tracks.sent row.id).mpr fresh
    by_cases destination : row.iface = o.interfaceDestination
    · refine .inl ⟨⟨fresh, destination⟩, ?_⟩
      rw [step, if_neg fun both => both.1 old, if_pos ⟨old, destination, kept⟩]
      cases s.flight.arrive script.remove startTimeStamp row <;> rfl
    · refine .inr ⟨fun both => destination both.2, s, ?_,
        tracks.idle (fun new => absurd new fresh) fun _ => destination⟩
      rw [step, if_neg fun both => both.1 old, if_neg fun both => destination both.2.1]

/-- An arrival keeps the property only if the packet is still in flight. -/
theorem arrive_pending (tracks : s.Tracks o rows) {flight : InFlight ι}
    (run : s.flight.arrive script.remove startTimeStamp row = .ok flight) (balanced : flight.Balanced) :
    ∃ first, pending o row.id rows = [first] := by
  rcases pending_cases o row.id rows with arrived | waiting
  · rw [InFlight.arrive_missing _ _ (tracks.missing arrived)] at run
    cases run
    have count : s.flight.packageInFlyCount - 1 = s.flight.packageInFly.length := balanced.1
    have before := tracks.balanced.1
    omega
  · exact waiting

theorem firstSend_step (tracks : s.Tracks o rows) (row : TraceRow ι) (later : List (TraceRow ι)) :
    (Component.Yields (·.flight.Balanced) (pcktInFlyFirstSendTCP.step o startTimeStamp s (row, later)) ↔
        (o.Arrives rows row → o.Awaits rows row)) ∧
      ((o.Arrives rows row → o.Awaits rows row) → Component.Yields (TcpFlight.Tracks o (rows ++ [row]))
        (pcktInFlyFirstSendTCP.step o startTimeStamp s (row, later))) := by
  rcases step_cases pcktInFlyFirstSendTCP (fun _ _ => rfl) tracks row later with ⟨arrives, run⟩ | ⟨stays, t, run, next⟩
  · rw [run, forall_prop_of_true arrives]
    cases result : s.flight.arrive pcktInFlyFirstSendTCP.remove startTimeStamp row with
    | error e =>
      have stuck : ∀ first, pending o row.id rows ≠ [first] := by
        intro first waiting
        obtain ⟨flight, -, -, -, run, -⟩ := InFlight.arrive_found startTimeStamp (tracks.present waiting)
        cases result.symm.trans run
      have unawaited : ¬o.Awaits rows row := fun ⟨first, waiting, _⟩ => stuck first waiting
      exact ⟨iff_of_false id unawaited, fun awaits => absurd awaits unawaited⟩
    | ok flight =>
      show (flight.Balanced ↔ o.Awaits rows row) ∧
        (o.Awaits rows row → TcpFlight.Tracks o (rows ++ [row]) { s with flight })
      have balance : ∀ first, pending o row.id rows = [first] → (flight.Balanced ↔ row.length = first.length) ∧
          (row.length = first.length → TcpFlight.Tracks o (rows ++ [row]) { s with flight }) := by
        intro first waiting
        obtain ⟨flight', early, pck, late, run, takes⟩ := InFlight.arrive_found startTimeStamp (tracks.present waiting)
        obtain rfl := Except.ok.inj (result.symm.trans run)
        exact ⟨tracks.takes_balanced waiting takes, tracks.takes arrives waiting takes⟩
      refine ⟨⟨fun balanced => ?_, fun ⟨first, waiting, equal⟩ => (balance first waiting).1.mpr equal⟩,
        fun ⟨first, waiting, equal⟩ => (balance first waiting).2 equal⟩
      obtain ⟨first, waiting⟩ := arrive_pending tracks result balanced
      exact ⟨first, waiting, (balance first waiting).1.mp balanced⟩
  · rw [run]
    exact ⟨iff_of_true next.balanced fun arrives => absurd arrives stays, fun _ => next⟩

/-- Every arrival ends the script, or comes when the packet is no longer in flight. -/
theorem lastSend_step (tracks : s.Tracks o rows) (row : TraceRow ι) (later : List (TraceRow ι)) :
    (Component.Yields (·.flight.Balanced) ((pcktInFlyLastSendTCP o).step o startTimeStamp s (row, later)) ↔
        ¬o.Arrives rows row) ∧
      (¬o.Arrives rows row → Component.Yields (TcpFlight.Tracks o (rows ++ [row]))
        ((pcktInFlyLastSendTCP o).step o startTimeStamp s (row, later))) := by
  rcases step_cases (pcktInFlyLastSendTCP o) (fun _ _ => rfl) tracks row later with
    ⟨arrives, run⟩ | ⟨stays, t, run, next⟩
  · refine ⟨iff_of_false (fun yields => ?_) fun stays => stays arrives, fun stays => absurd arrives stays⟩
    rw [run] at yields
    cases result : s.flight.arrive (pcktInFlyLastSendTCP o).remove startTimeStamp row with
    | error e =>
      rw [result] at yields
      exact yields
    | ok flight =>
      rw [result] at yields
      obtain ⟨first, waiting⟩ := arrive_pending tracks result yields
      cases (InFlight.arrive_found_error startTimeStamp _ (tracks.present waiting)).symm.trans result
  · rw [run]
    exact ⟨iff_of_true next.balanced stays, fun _ => next⟩

theorem balances_iff (zero : script.packageInFlyCount = 0) {Q : List (TraceRow ι) → TraceRow ι → Prop}
    (call : ∀ startTimeStamp before s row later, TcpFlight.Tracks o before s →
      (Component.Yields (·.flight.Balanced) (script.step o startTimeStamp s (row, later)) ↔ Q before row) ∧
        (Q before row → Component.Yields (TcpFlight.Tracks o (before ++ [row]))
          (script.step o startTimeStamp s (row, later)))) :
    script.Balances o rows ↔ ∀ before row later, rows = before ++ row :: later → Q before row := by
  cases rows with
  | nil => simp [Balances]
  | cons head tail =>
    have start : TcpFlight.Tracks o (([] : List (TraceRow ι × List (TraceRow ι))).map Prod.fst)
        ({ flight := { packageInFlyCount := script.packageInFlyCount } } : TcpFlight ι) := by
      rw [zero]
      exact TcpFlight.Tracks.start
    rw [← forall_withLater]
    refine Component.along_yields_iff
      (I := fun (before : List (TraceRow ι × List (TraceRow ι))) => TcpFlight.Tracks o (before.map Prod.fst))
      (Q := fun before c => Q (before.map Prod.fst) c.1) (fun before s c tracks => ?_) start
    rw [map_append, map_singleton]
    exact call head.time _ s c.1 c.2 tracks

theorem noDrop_step_unbalanced (row : TraceRow ι) (later : List (TraceRow ι)) :
    ¬Component.Yields (·.flight.Balanced)
      ((pcktInFlyNoDropTCP o).step o startTimeStamp { flight := { packageInFlyCount := -1 } } (row, later)) := by
  by_cases source : row.iface = o.interfaceSource
  · by_cases again : later.any (o.sends row.id)
    · simp [step, source, again, pcktInFlyNoDropTCP, Component.Yields, InFlight.Balanced]
    · simp [step, source, again, pcktInFlyNoDropTCP, Component.Yields, InFlight.Balanced, InFlight.send]
  · simp [step, source, Component.Yields, InFlight.Balanced]

end TcpScript

/-- The counters of `pcktInFlyFirstSendTCP` are right as long as each packet that was sent
arrives once, with the length it had. `pcktInFlyLastSendTCP` stops at the first arrival, and
`pcktInFlyNoDropTCP` counts from minus one. -/
theorem pcktInFlyTCP_balances_iff (o : Interfaces) (rows : List (TraceRow ι)) :
    (pcktInFlyFirstSendTCP.Balances o rows ↔
        ∀ before row later, rows = before ++ row :: later → o.Arrives before row → o.Awaits before row) ∧
      ((pcktInFlyLastSendTCP o).Balances o rows ↔
        ∀ before row later, rows = before ++ row :: later → ¬o.Arrives before row) ∧
      ((pcktInFlyNoDropTCP o).Balances o rows ↔ rows = []) := by
  refine ⟨TcpScript.balances_iff rfl fun _ _ _ row later tracks => TcpScript.firstSend_step tracks row later,
    TcpScript.balances_iff rfl fun _ _ _ row later tracks => TcpScript.lastSend_step tracks row later, ?_⟩
  cases rows with
  | nil => exact iff_of_true trivial rfl
  | cons head tail =>
    refine iff_of_false (fun balances => ?_) (cons_ne_nil _ _)
    exact TcpScript.noDrop_step_unbalanced head tail balances.1

/-- A packet that arrives twice, one whose arrival ends the script, and one that is sent. -/
theorem pcktInFlyTCP_unbalanced : let o : Interfaces := ⟨0, 1⟩
    let row (time : ℚ) (iface : Int) : TraceRow ℕ := { time, iface, proto := some 6, length := 100, id := 1 }
    let counts (flight : InFlight ℕ) := (flight.packageInFlyCount, flight.packageInFly.length, flight.byteInFlyCount)
    (pcktInFlyFirstSendTCP.run o [row 0 0, row 1 1, row 2 1]).map counts = .ok (-1, 0, -100) ∧
      (pcktInFlyLastSendTCP o).run o [row 0 0, row 1 1] = .error .attributeError ∧
      ((pcktInFlyNoDropTCP o).run o [row 0 0]).map counts = .ok (0, 1, 100) ∧
      ¬pcktInFlyFirstSendTCP.Balances o [row 0 0, row 1 1, row 2 1] ∧
      ¬(pcktInFlyLastSendTCP o).Balances o [row 0 0, row 1 1] ∧ ¬(pcktInFlyNoDropTCP o).Balances o [row 0 0] := by
  decide +kernel

end MoonGen
