import MoonGen.Lib.Machine

namespace MoonGen

/-- The parameters that stand in the namespace under a name of their own. -/
inductive NsKey where
  | shortDRXCycleLength | longDRXCycleLength | activeTime | continuousReceptionInactivityTimer
  | shortDRXInactivityTimer | longDRXInactivityTimer | rccIdleCycleLength | rccConnectionBuildDelay
  deriving DecidableEq, Repr

def NsKey.name : NsKey → String
  | .shortDRXCycleLength => "short_DRX_cycle_length"
  | .longDRXCycleLength => "long_DRX_cycle_length"
  | .activeTime => "active_time"
  | .continuousReceptionInactivityTimer => "continuous_reception_inactivity_timer"
  | .shortDRXInactivityTimer => "short_DRX_inactivity_timer"
  | .longDRXInactivityTimer => "long_DRX_inactivity_timer"
  | .rccIdleCycleLength => "rcc_idle_cycle_length"
  | .rccConnectionBuildDelay => "rcc_connection_build_delay"

/-- The order in which the handler looks for them. -/
def NsKey.all : List NsKey :=
  [.shortDRXCycleLength, .longDRXCycleLength, .activeTime, .continuousReceptionInactivityTimer,
    .shortDRXInactivityTimer, .longDRXInactivityTimer, .rccIdleCycleLength, .rccConnectionBuildDelay]

theorem NsKey.mem_all (k : NsKey) : k ∈ NsKey.all := by cases k <;> decide

/-- The fields of an entry of `ns.thread`. -/
inductive ThreadKey where
  | rate | latency | xlatency | queuedepth | lossrate | clossrate | catchuprate
  deriving DecidableEq, Repr

/-- The key of a message that sets the field for a thread. -/
def ThreadKey.name (n : Fin 2) (k : ThreadKey) : String :=
  (if n = 0 then "thread1_" else "thread2_") ++ match k with
    | .rate => "rate"
    | .latency => "latency"
    | .xlatency => "xlatency"
    | .queuedepth => "queuedepth"
    | .lossrate => "loss"
    | .clossrate => "concealedloss"
    | .catchuprate => "catchuprate"

/-- The server task with its part of the namespace: the parameters, `ns.thread`
with the fields that were never set, and `changed_data` of the connection. An
error in the handler ends it. -/
structure Server (ν : Type) where
  param : NsKey → ν
  thread : Fin 2 → ThreadKey → Option ν
  changed : Fin 2 → ThreadKey → Option ν
  stopped : Bool

/-- A new connection, or a message that decodes to an object. -/
inductive ServerEvent (ν : Type) where
  | connect
  | message (decoded : String → Option ν)

namespace Server

variable {ν : Type}

/-- The tests for the first eight keys, one after another. The handler sets the
fourth through `ns.ns`, which is `nil`: that is an error, and the keys behind
it are not looked for. -/
def writeNs (decoded : String → Option ν) : List NsKey → (NsKey → ν) → (NsKey → ν) × Bool
  | [], param => (param, true)
  | k :: keys, param =>
    match decoded k.name with
    | none => writeNs decoded keys param
    | some value =>
      if k = .continuousReceptionInactivityTimer then (param, false)
      else writeNs decoded keys (Function.update param k value)

/-- `changed_data` when a connection starts: the fields of `ns.thread` that the
handler lists, which are all but the queue depth. -/
def snapshot (thread : Fin 2 → ThreadKey → Option ν) : Fin 2 → ThreadKey → Option ν :=
  fun n k => if k = .queuedepth then none else thread n k

def connect (s : Server ν) : Server ν := { s with changed := snapshot s.thread }

/-- One message in the loop of `handle_stream`. -/
def message (s : Server ν) (decoded : String → Option ν) : Server ν :=
  if s.stopped then s
  else
    match writeNs decoded NsKey.all s.param with
    | (param, false) => { s with param, stopped := true }
    | (param, true) =>
      let changed := fun n k => (decoded (ThreadKey.name n k)).or (s.changed n k)
      { s with param, thread := changed, changed }

def step (s : Server ν) : ServerEvent ν → Server ν
  | .connect => s.connect
  | .message decoded => s.message decoded

/-- The first connection, with `ns.thread` as the master task wrote it. -/
structure Initial (s : Server ν) : Prop where
  queuedepth : ∀ n, s.thread n .queuedepth = none
  changed : s.changed = snapshot s.thread
  running : s.stopped = false

/-- A message is applied: what it names has the given value, everything else
keeps its value, and the handler goes on. -/
structure Applies (s : Server ν) (decoded : String → Option ν) : Prop where
  param : ∀ k : NsKey, (s.message decoded).param k = (decoded k.name).getD (s.param k)
  thread : ∀ n k, (s.message decoded).thread n k = (decoded (ThreadKey.name n k)).or (s.thread n k)
  running : (s.message decoded).stopped = false

/-- The message does not name the inactivity timer of continuous reception, and
it names the queue depth of each thread that this connection does not know. -/
def Admits (s : Server ν) : ServerEvent ν → Prop
  | .connect => True
  | .message decoded => decoded NsKey.continuousReceptionInactivityTimer.name = none ∧
      ∀ n, decoded (ThreadKey.name n .queuedepth) ≠ none ∨ s.changed n .queuedepth = s.thread n .queuedepth

variable {decoded : String → Option ν}

theorem writeNs_of_none
    (absent : decoded NsKey.continuousReceptionInactivityTimer.name = none) (keys : List NsKey) (param : NsKey → ν) :
    writeNs decoded keys param = (fun k => if k ∈ keys then (decoded k.name).getD (param k) else param k, true) := by
  induction keys generalizing param with
  | nil => simp [writeNs]
  | cons first keys ih =>
    have step : writeNs decoded (first :: keys) param =
        writeNs decoded keys (Function.update param first ((decoded first.name).getD (param first))) := by
      rw [writeNs]
      cases value : decoded first.name with
      | none => simp
      | some v =>
        have other : first ≠ .continuousReceptionInactivityTimer := by
          rintro rfl
          simp [absent] at value
        simp [other]
    rw [step, ih]
    congr 1
    funext k
    by_cases same : k = first
    · subst same
      cases decoded k.name <;> simp
    · simp [same]

theorem writeNs_of_some {v : ν}
    (present : decoded NsKey.continuousReceptionInactivityTimer.name = some v) {keys : List NsKey}
    (member : .continuousReceptionInactivityTimer ∈ keys) (param : NsKey → ν) :
    (writeNs decoded keys param).2 = false := by
  induction keys generalizing param with
  | nil => simp at member
  | cons first keys ih =>
    rw [writeNs]
    by_cases same : first = .continuousReceptionInactivityTimer
    · simp [same, present]
    · have rest : .continuousReceptionInactivityTimer ∈ keys := by simpa [Ne.symm same] using member
      cases decoded first.name with
      | none => exact ih rest param
      | some value =>
        simp only [same, if_false]
        exact ih rest _

variable {s : Server ν}

theorem message_of_none (running : s.stopped = false)
    (absent : decoded NsKey.continuousReceptionInactivityTimer.name = none) :
    s.message decoded =
      { s with
        param := fun k => (decoded k.name).getD (s.param k)
        thread := fun n k => (decoded (ThreadKey.name n k)).or (s.changed n k)
        changed := fun n k => (decoded (ThreadKey.name n k)).or (s.changed n k) } := by
  simp only [message, running, writeNs_of_none absent, NsKey.mem_all, if_true, Bool.false_eq_true, if_false]

theorem message_of_some {v : ν} (present : decoded NsKey.continuousReceptionInactivityTimer.name = some v) :
    (s.message decoded).stopped = true := by
  have error := writeNs_of_some present (NsKey.mem_all .continuousReceptionInactivityTimer) s.param
  rw [message]
  split
  · assumption
  · generalize writeNs decoded NsKey.all s.param = written at error
    obtain ⟨param, going⟩ := written
    cases error
    rfl

/-- What holds while the handler runs: the connection knows every field of
`ns.thread`, the queue depths apart. -/
structure Knows (s : Server ν) : Prop where
  running : s.stopped = false
  known : ∀ n k, k ≠ .queuedepth → s.changed n k = s.thread n k

theorem Initial.knows (initial : s.Initial) : s.Knows where
  running := initial.running
  known n k other := by simp [initial.changed, snapshot, other]

theorem Knows.step (knows : s.Knows) {e : ServerEvent ν} (admits : s.Admits e) : (s.step e).Knows := by
  cases e with
  | connect => exact ⟨knows.running, fun n k other => by simp [Server.step, connect, snapshot, other]⟩
  | message decoded =>
    have applied := message_of_none knows.running admits.1
    refine ⟨?_, fun n k _ => ?_⟩
    · rw [Server.step, applied, knows.running]
    · rw [Server.step, applied]

/-- One message, from a state in which the connection knows all but the queue depths. -/
theorem Knows.applies_iff (knows : s.Knows) (decoded : String → Option ν) :
    s.Applies decoded ↔ s.Admits (.message decoded) := by
  cases present : decoded NsKey.continuousReceptionInactivityTimer.name with
  | some v =>
    have stops := message_of_some (s := s) present
    constructor
    · intro applies
      have running := applies.running
      simp [stops] at running
    · intro admits
      simp [Admits, present] at admits
  | none =>
    have applied := message_of_none knows.running present
    constructor
    · intro applies
      refine ⟨present, fun n => ?_⟩
      have depth := applies.thread n .queuedepth
      rw [applied] at depth
      cases value : decoded (ThreadKey.name n .queuedepth) with
      | none => exact .inr (by simpa [value] using depth)
      | some v => exact .inl (by simp)
    · rintro ⟨-, depths⟩
      refine ⟨fun k => by rw [applied], fun n k => ?_, by rw [applied, knows.running]⟩
      rw [applied]
      by_cases depth : k = .queuedepth
      · subst depth
        obtain given | same := depths n
        · obtain ⟨v, value⟩ := Option.ne_none_iff_exists'.mp given
          simp [value]
        · simp only [same]
      · simp only [knows.known n k depth]

end Server

/-- The runs of the server: connections and messages in any order. -/
def server (ν : Type) : Machine (Server ν) (ServerEvent ν) where
  start := Server.Initial
  enabled _ _ := True
  next := Server.step

/-- In every run whose messages so far met the condition, the next message is
applied exactly when it meets the condition. -/
theorem server_applies_iff {ν : Type} {s : Server ν} (reach : ((server ν).guarded Server.Admits).Reach s)
    (decoded : String → Option ν) : s.Applies decoded ↔ s.Admits (.message decoded) := by
  have knows : s.Knows := reach.invariant (fun _ => Server.Initial.knows) fun _ _ held able => held.step able.2
  exact knows.applies_iff decoded

namespace Server

/-- The state of a first connection. -/
def fresh : Server Nat where
  param _ := 0
  thread _ k := if k = .queuedepth then none else some 10
  changed _ k := if k = .queuedepth then none else some 10
  stopped := false

theorem fresh_initial : fresh.Initial :=
  ⟨fun _ => rfl, by funext n k; cases k <;> rfl, rfl⟩

/-- A message with one key. -/
def single (key : String) (value : Nat) : String → Option Nat := fun name => if name = key then some value else none

end Server

theorem server_applies_active_time : Server.fresh.Applies (Server.single "active_time" 3) :=
  (server_applies_iff (.start Server.fresh_initial) _).mpr
    ⟨by decide, fun _ => .inr rfl⟩

/-- After a message that sets the inactivity timer of continuous reception the
timer has its old value, and a later message changes nothing. After a message
that sets a queue depth, a message of the next connection takes it back. -/
theorem server_message_lost : (server Nat).Reach Server.fresh ∧
    (let s := Server.fresh.message (Server.single "continuous_reception_inactivity_timer" 5)
     s.param .continuousReceptionInactivityTimer = 0 ∧
       (s.message (Server.single "active_time" 3)).param .activeTime = 0) ∧
    (let s := (Server.fresh.message (Server.single "thread1_queuedepth" 7)).connect
     s.thread 0 .queuedepth = some 7 ∧ (s.message (Server.single "active_time" 3)).thread 0 .queuedepth = none) :=
  ⟨.start Server.fresh_initial, by decide, by decide⟩

end MoonGen
