import Mathlib.Data.List.Nodup
import Mathlib.Data.List.ReduceOption
import Mathlib.Algebra.Order.Ring.Rat

namespace MoonGen

open List

/-- A received packet: what its PTP header and its mbuf say, and what the timestamp
register answers when it is read for this packet. -/
structure RxPkt where
  seq : UInt16
  hasTimestamp : Bool
  register : Option Rat

/-- One turn of the polling loop: the packets that `tryRecv` delivers and the answer
of `hasRxTimestamp`, which is -1 where the device does not know the packet. -/
structure Poll where
  batch : List RxPkt
  timestamped : Option Int

/-- How the scan of a batch ends. -/
inductive Scan where
  | passed
  | noTimestamp
  | stamped (rxTs : Rat)
  | notStamped
  deriving DecidableEq

def scan (expectedSeq : UInt16) (timestampedPkt : Int) : List RxPkt → Scan
  | [] => .passed
  | buf :: bufs =>
    if buf.hasTimestamp ∧ buf.seq = expectedSeq ∧ ((buf.seq.toNat : Int) = timestampedPkt ∨ timestampedPkt = -1) then
      match buf.register with
      | none => .noTimestamp
      | some rxTs => .stamped rxTs
    else if buf.hasTimestamp ∧ ((buf.seq.toNat : Int) = timestampedPkt ∨ timestampedPkt = -1) then
      -- the register is read only to clear it
      scan expectedSeq timestampedPkt bufs
    else if buf.seq = expectedSeq ∧ (buf.seq.toNat : Int) ≠ timestampedPkt ∧ timestampedPkt ≠ -1 then .notStamped
    else scan expectedSeq timestampedPkt bufs

/-- The device has stamped the packet, or does not know. -/
def RxPkt.Stamped (timestampedPkt : Int) (buf : RxPkt) : Prop :=
  (buf.seq.toNat : Int) = timestampedPkt ∨ timestampedPkt = -1

/-- The packet of the call, unless it is stamped and its mbuf does not show that. -/
def RxPkt.Expected (expectedSeq : UInt16) (timestampedPkt : Int) (buf : RxPkt) : Prop :=
  buf.seq = expectedSeq ∧ (buf.Stamped timestampedPkt → buf.hasTimestamp = true)

instance (timestampedPkt : Int) (buf : RxPkt) : Decidable (buf.Stamped timestampedPkt) :=
  inferInstanceAs (Decidable (_ ∨ _))

instance (expectedSeq : UInt16) (timestampedPkt : Int) (buf : RxPkt) :
    Decidable (buf.Expected expectedSeq timestampedPkt) := inferInstanceAs (Decidable (_ ∧ (_ → _)))

/-- A timestamper with the slots of its `rxBufs`. Mbufs are numbered in the order in
which they are received. -/
structure Timestamper where
  seq : UInt16
  slots : List (Option Nat)
  received : Nat
  freed : List Nat
  overwritten : List Nat

namespace Timestamper

/-- `bufArray:freeAll`, which stops at the first empty slot: the slots behind it and
the mbufs it frees. -/
def freeSlots : List (Option Nat) → List (Option Nat) × List Nat
  | [] => ([], [])
  | none :: slots => (none :: slots, [])
  | some m :: slots => (none :: (freeSlots slots).1, m :: (freeSlots slots).2)

def freeAll (t : Timestamper) : Timestamper :=
  { t with slots := (freeSlots t.slots).1, freed := t.freed ++ (freeSlots t.slots).2 }

/-- New mbufs go to the first slots, whatever these hold. -/
def tryRecv (t : Timestamper) (rx : Nat) : Timestamper :=
  { t with
    slots := (List.range' t.received rx).map some ++ t.slots.drop rx
    received := t.received + rx
    overwritten := t.overwritten ++ (t.slots.take rx).reduceOption }

def latency (maxWait tx rxTs : Rat) : Option Rat :=
  if 0 < rxTs - tx ∧ rxTs - tx < 2 * maxWait * 10 ^ 9 then some (rxTs - tx) else none

/-- The polls up to the end of the timer. -/
def pollLoop (expectedSeq : UInt16) (maxWait tx : Rat) :
    List Poll → Nat → Timestamper → (Option Rat × Nat) × Timestamper
  | [], numPkts, t => ((none, numPkts), t)
  | poll :: polls, numPkts, t =>
    let t := t.tryRecv poll.batch.length
    let numPkts := numPkts + poll.batch.length
    match poll.timestamped with
    | none => pollLoop expectedSeq maxWait tx polls numPkts t.freeAll
    | some timestampedPkt =>
      match scan expectedSeq timestampedPkt poll.batch with
      | .passed => pollLoop expectedSeq maxWait tx polls numPkts t
      | .noTimestamp => ((none, numPkts), t)
      | .stamped rxTs => ((latency maxWait tx rxTs, numPkts), t.freeAll)
      | .notStamped => ((none, numPkts), t.freeAll)

/-- The latency, the number of packets seen and the timestamper behind the call. -/
def measureLatency (maxWait : Rat) (tx : Option Rat) (polls : List Poll) (t : Timestamper) :
    (Option Rat × Nat) × Timestamper :=
  match tx with
  | some tx => pollLoop t.seq maxWait tx polls 0 { t with seq := t.seq + 1 }
  | none => ((none, 0), { t with seq := t.seq + 1 })

def newTimestamper : Timestamper := ⟨1, List.replicate 128 none, 0, [], []⟩

/-- A timestamper in use: any calls of `measureLatency` lie behind it. -/
inductive Used : Timestamper → Prop
  | new : Used newTimestamper
  | call {t} (maxWait tx polls) : Used t → Used (t.measureLatency maxWait tx polls).2

/-- The mbufs received from some moment on are freed exactly once, and none of them
has been overwritten in its slot. -/
def Returned (first : Nat) (t : Timestamper) : Prop :=
  ∀ m, first ≤ m → m < t.received → t.freed.count m = 1 ∧ m ∉ t.overwritten

/-- No batch arrives while one without the expected packet is still in the slots, the
polls end with that packet or with empty slots, and when it is stamped the register
has its timestamp. -/
def Tidy (expectedSeq : UInt16) : Bool → List Poll → Prop
  | held, [] => held = false
  | held, poll :: polls =>
    (held = true → poll.batch = []) ∧
      match poll.timestamped with
      | none => Tidy expectedSeq false polls
      | some timestampedPkt =>
        match poll.batch.find? fun buf => buf.Expected expectedSeq timestampedPkt with
        | none => Tidy expectedSeq (held || !poll.batch.isEmpty) polls
        | some buf => buf.Stamped timestampedPkt → buf.register ≠ none

/-- The scan ends with the expected packet. -/
theorem scan_eq (expectedSeq : UInt16) (timestampedPkt : Int) (bufs : List RxPkt) :
    scan expectedSeq timestampedPkt bufs =
      match bufs.find? fun buf => buf.Expected expectedSeq timestampedPkt with
      | none => .passed
      | some buf =>
        if buf.Stamped timestampedPkt then
          match buf.register with
          | none => .noTimestamp
          | some rxTs => .stamped rxTs
        else .notStamped := by
  induction bufs with
  | nil => rfl
  | cons buf bufs ih =>
    by_cases expected : buf.Expected expectedSeq timestampedPkt
    · rw [find?_cons_of_pos (by simpa using expected)]
      obtain ⟨own, shown⟩ := expected
      dsimp only
      by_cases stamped : buf.Stamped timestampedPkt
      · rw [if_pos stamped]
        exact if_pos ⟨shown stamped, own, stamped⟩
      · obtain ⟨different, known⟩ := not_or.mp stamped
        rw [if_neg stamped, scan, if_neg fun test => stamped test.2.2, if_neg fun test => stamped test.2,
          if_pos ⟨own, different, known⟩]
    · rw [find?_cons_of_neg (by simpa using expected), ← ih, scan]
      have first : ¬(buf.hasTimestamp = true ∧ buf.seq = expectedSeq ∧
          ((buf.seq.toNat : Int) = timestampedPkt ∨ timestampedPkt = -1)) :=
        fun test => expected ⟨test.2.1, fun _ => test.1⟩
      have third : ¬(buf.seq = expectedSeq ∧ (buf.seq.toNat : Int) ≠ timestampedPkt ∧ timestampedPkt ≠ -1) :=
        fun test => expected ⟨test.1, fun stamped => absurd stamped (not_or.mpr test.2)⟩
      rw [if_neg first, if_neg third, ite_self]

theorem freeSlots_packed (held : List Nat) (k : Nat) :
    freeSlots (held.map some ++ List.replicate k none) = (List.replicate (held.length + k) none, held) := by
  induction held with
  | nil => cases k <;> simp [freeSlots, replicate_succ]
  | cons m held ih => simp [freeSlots, ih, replicate_succ, Nat.succ_add]

/-- A turn of the loop receives a batch and frees the slots or not. It ends the loop
or goes on. -/
theorem pollLoop_cons (expectedSeq : UInt16) (maxWait tx : Rat) (poll : Poll) (polls : List Poll) (numPkts : Nat)
    (t : Timestamper) : ∃ u, (u = t.tryRecv poll.batch.length ∨ u = (t.tryRecv poll.batch.length).freeAll) ∧
      ((pollLoop expectedSeq maxWait tx (poll :: polls) numPkts t).2 = u ∨
        pollLoop expectedSeq maxWait tx (poll :: polls) numPkts t =
          pollLoop expectedSeq maxWait tx polls (numPkts + poll.batch.length) u) := by
  simp only [pollLoop]
  split
  · exact ⟨_, .inr rfl, .inr rfl⟩
  · split
    · exact ⟨_, .inl rfl, .inr rfl⟩
    · exact ⟨_, .inl rfl, .inl rfl⟩
    · exact ⟨_, .inr rfl, .inl rfl⟩
    · exact ⟨_, .inr rfl, .inl rfl⟩

/-- What was received or overwritten stays so. -/
def Grown (t u : Timestamper) : Prop := t.received ≤ u.received ∧ t.overwritten ⊆ u.overwritten

theorem grown_turn {expectedSeq : UInt16} {maxWait tx : Rat} {polls : List Poll} (poll : Poll) (numPkts : Nat)
    (t : Timestamper) (rest : ∀ n u, Grown u (pollLoop expectedSeq maxWait tx polls n u).2) :
    Grown (t.tryRecv poll.batch.length) (pollLoop expectedSeq maxWait tx (poll :: polls) numPkts t).2 := by
  obtain ⟨u, turn, result⟩ := pollLoop_cons expectedSeq maxWait tx poll polls numPkts t
  have after : Grown (t.tryRecv poll.batch.length) u := by
    rcases turn with rfl | rfl <;> exact ⟨le_rfl, List.Subset.refl _⟩
  rcases result with last | goes
  · rwa [last]
  · have more := rest (numPkts + poll.batch.length) u
    rw [goes]
    exact ⟨after.1.trans more.1, List.Subset.trans after.2 more.2⟩

theorem grown_pollLoop (expectedSeq : UInt16) (maxWait tx : Rat) (polls : List Poll) (numPkts : Nat)
    (t : Timestamper) : Grown t (pollLoop expectedSeq maxWait tx polls numPkts t).2 := by
  induction polls generalizing t numPkts with
  | nil => exact ⟨le_rfl, List.Subset.refl _⟩
  | cons poll polls ih =>
    obtain ⟨received, overwritten⟩ := grown_turn poll numPkts t ih
    exact ⟨(Nat.le_add_right _ _).trans received, List.Subset.trans (subset_append_left _ _) overwritten⟩

theorem drop_packed (held : List Nat) (k rx : Nat) : (held.map some ++ List.replicate k none).drop rx =
    (held.drop rx).map some ++ List.replicate (k - (rx - held.length)) (none : Option Nat) := by
  rw [drop_append, map_drop, length_map, drop_replicate]

theorem mem_of_mem_take {held : List Nat} {k rx m : Nat}
    (member : m ∈ ((held.map some ++ List.replicate k none).take rx).reduceOption) : m ∈ held := by
  have inside := List.mem_of_mem_take (reduceOption_mem_iff.mp member)
  simpa using inside

/-- The slots hold mbufs from the first one on, and every mbuf has been received. -/
structure Packed (held : List Nat) (t : Timestamper) : Prop where
  slots : ∃ k, t.slots = held.map some ++ List.replicate k none
  bound : ∀ m, m ∈ held ∨ m ∈ t.freed ∨ m ∈ t.overwritten → m < t.received

section
variable {t : Timestamper} {held : List Nat}

theorem Packed.freeAll (packed : t.Packed held) : t.freeAll.Packed [] := by
  obtain ⟨⟨k, slots⟩, bound⟩ := packed
  refine ⟨⟨held.length + k, ?_⟩, fun m member => bound m ?_⟩
  · rw [Timestamper.freeAll, slots, freeSlots_packed]
    rfl
  · simp only [Timestamper.freeAll, slots, freeSlots_packed, not_mem_nil, false_or, mem_append] at member
    tauto

theorem Packed.tryRecv (packed : t.Packed held) (rx : Nat) :
    (t.tryRecv rx).Packed (List.range' t.received rx ++ held.drop rx) := by
  obtain ⟨⟨k, slots⟩, bound⟩ := packed
  refine ⟨⟨k - (rx - held.length), ?_⟩, fun m member => ?_⟩
  · rw [Timestamper.tryRecv, slots, drop_packed, map_append, append_assoc]
  · change m < t.received + rx
    simp only [Timestamper.tryRecv, slots, mem_append, mem_range'_1] at member
    rcases member with (new | old) | freed | old | old
    · omega
    · exact Nat.lt_add_right rx (bound m (.inl (mem_of_mem_drop old)))
    · exact Nat.lt_add_right rx (bound m (.inr (.inl freed)))
    · exact Nat.lt_add_right rx (bound m (.inr (.inr old)))
    · exact Nat.lt_add_right rx (bound m (.inl (mem_of_mem_take old)))

theorem Packed.pollLoop {expectedSeq : UInt16} {maxWait tx : Rat} (polls : List Poll) {numPkts : Nat}
    (packed : t.Packed held) : ∃ after, (pollLoop expectedSeq maxWait tx polls numPkts t).2.Packed after := by
  induction polls generalizing t held numPkts with
  | nil => exact ⟨held, packed⟩
  | cons poll polls ih =>
    have next := packed.tryRecv poll.batch.length
    obtain ⟨u, turn, result⟩ := pollLoop_cons expectedSeq maxWait tx poll polls numPkts t
    have after : ∃ held, u.Packed held := by
      rcases turn with rfl | rfl
      · exact ⟨_, next⟩
      · exact ⟨_, next.freeAll⟩
    obtain ⟨held, packed⟩ := after
    rcases result with last | goes
    · exact ⟨held, last ▸ packed⟩
    · rw [goes]
      exact ih packed

theorem Used.packed (used : Used t) : ∃ held, t.Packed held := by
  induction used with
  | new => exact ⟨[], ⟨128, rfl⟩, by simp [newTimestamper]⟩
  | @call t maxWait tx polls _ ih =>
    obtain ⟨held, slots, bound⟩ := ih
    have start : Packed held { t with seq := t.seq + 1 } := ⟨slots, bound⟩
    cases tx with
    | none => exact ⟨held, start⟩
    | some tx => exact start.pollLoop polls

end

/-- A call since the first mbuf it received: its own mbufs are freed or in the slots,
in the order in which they came, before the ones of earlier calls. -/
structure Holding (first : Nat) (own old : List Nat) (t : Timestamper) : Prop where
  slots : ∃ k, t.slots = (own ++ old).map some ++ List.replicate k none
  received : first ≤ t.received
  freed : t.freed.filter (first ≤ ·) ++ own = List.range' first (t.received - first)
  old : ∀ m ∈ old, m < first
  overwritten : ∀ m ∈ t.overwritten, m < first

section
variable {t : Timestamper} {first : Nat} {own old : List Nat}

theorem Packed.holding {held : List Nat} (packed : t.Packed held) (seq : UInt16) :
    Holding t.received [] held { t with seq := seq } := by
  obtain ⟨slots, bound⟩ := packed
  refine ⟨slots, le_rfl, ?_, fun m member => bound m (.inl member), fun m member => bound m (.inr (.inr member))⟩
  rw [Nat.sub_self, range'_zero, append_nil, filter_eq_nil_iff]
  intro m member
  simpa using bound m (.inr (.inl member))

theorem Holding.mem_own (holding : Holding first own old t) {m : Nat} (member : m ∈ own) :
    first ≤ m ∧ m < t.received := by
  have inside : m ∈ List.range' first (t.received - first) := holding.freed ▸ mem_append_right _ member
  have received := holding.received
  rw [mem_range'_1] at inside
  omega

/-- Nothing is left of the call exactly when its mbufs are out of the slots. -/
theorem Holding.returned_iff (holding : Holding first own old t) : t.Returned first ↔ own = [] := by
  have once (m : Nat) (lower : first ≤ m) (upper : m < t.received) : t.freed.count m + own.count m = 1 := by
    have count : (t.freed.filter (first ≤ ·)).count m = t.freed.count m := count_filter (by simpa using lower)
    rw [← count, ← count_append, holding.freed]
    refine count_eq_one_of_mem (nodup_range' ..) ?_
    rw [mem_range'_1]
    omega
  refine ⟨fun returned => eq_nil_iff_forall_not_mem.mpr fun m member => ?_, fun empty m lower upper => ?_⟩
  · obtain ⟨lower, upper⟩ := holding.mem_own member
    have freed := (returned m lower upper).1
    have held := count_pos_iff.mpr member
    have sum := once m lower upper
    omega
  · have sum := once m lower upper
    rw [empty, count_nil] at sum
    exact ⟨sum, fun member => absurd (holding.overwritten m member) (not_lt.mpr lower)⟩

theorem Holding.freeAll (holding : Holding first own old t) : Holding first [] [] t.freeAll := by
  obtain ⟨k, slots⟩ := holding.slots
  have mine : own.filter (first ≤ ·) = own :=
    filter_eq_self.mpr fun m member => by simpa using (holding.mem_own member).1
  have others : old.filter (first ≤ ·) = [] :=
    filter_eq_nil_iff.mpr fun m member => by simpa using holding.old m member
  refine ⟨⟨(own ++ old).length + k, ?_⟩, holding.received, ?_, by simp, holding.overwritten⟩
  · rw [Timestamper.freeAll, slots, freeSlots_packed]
    rfl
  · rw [Timestamper.freeAll, slots, freeSlots_packed]
    dsimp only
    rw [append_nil, filter_append, filter_append, mine, others, append_nil]
    exact holding.freed

theorem Holding.tryRecv (holding : Holding first [] old t) (rx : Nat) :
    Holding first (List.range' t.received rx) (old.drop rx) (t.tryRecv rx) := by
  obtain ⟨⟨k, slots⟩, received, freed, older, overwritten⟩ := holding
  rw [nil_append] at slots
  refine ⟨⟨k - (rx - old.length), ?_⟩, Nat.le_add_right_of_le received, ?_, fun m member => ?_, fun m member => ?_⟩
  · rw [Timestamper.tryRecv, slots, drop_packed, map_append, append_assoc]
  · rw [append_nil] at freed
    change t.freed.filter (first ≤ ·) ++ _ = List.range' first (t.received + rx - first)
    have append := @range'_append_1 first (t.received - first) rx
    rw [Nat.add_sub_cancel' received] at append
    rw [freed, append]
    congr 1
    omega
  · exact older m (mem_of_mem_drop member)
  · rw [Timestamper.tryRecv, slots] at member
    rcases mem_append.mp member with before | now
    · exact overwritten m before
    · exact older m (mem_of_mem_take now)

theorem tryRecv_zero : t.tryRecv 0 = t := by
  simp [tryRecv]

theorem Holding.next (holding : Holding first own old t) {batch : List RxPkt} (fine : own = [] ∨ batch = []) :
    ∃ own' old', Holding first own' old' (t.tryRecv batch.length) ∧
      (!own'.isEmpty) = (!own.isEmpty || !batch.isEmpty) := by
  rcases fine with rfl | rfl
  · refine ⟨_, _, holding.tryRecv batch.length, ?_⟩
    cases batch <;> simp [range'_succ]
  · exact ⟨own, old, by rwa [length_nil, tryRecv_zero], by simp⟩

/-- A batch that arrives on an own mbuf overwrites it. -/
theorem Holding.lost (holding : Holding first own old t) {rx : Nat} (held : own ≠ []) (nonzero : rx ≠ 0) :
    ∃ m, first ≤ m ∧ m < t.received ∧ m ∈ (t.tryRecv rx).overwritten := by
  obtain ⟨m, rest, rfl⟩ := exists_cons_of_ne_nil held
  obtain ⟨rx, rfl⟩ := Nat.exists_eq_succ_of_ne_zero nonzero
  obtain ⟨k, slots⟩ := holding.slots
  obtain ⟨lower, upper⟩ := holding.mem_own (mem_cons_self ..)
  refine ⟨m, lower, upper, mem_append_right _ ?_⟩
  rw [slots, reduceOption_mem_iff]
  simp

theorem Holding.not_returned {expectedSeq : UInt16} {maxWait tx : Rat} {poll : Poll} {polls : List Poll} {numPkts : Nat}
    (holding : Holding first own old t) (held : own ≠ []) (nonempty : poll.batch ≠ []) :
    ¬(Timestamper.pollLoop expectedSeq maxWait tx (poll :: polls) numPkts t).2.Returned first := by
  intro returned
  obtain ⟨m, lower, upper, lost⟩ := holding.lost held (mt length_eq_zero_iff.mp nonempty)
  have grown := grown_turn poll numPkts t (grown_pollLoop expectedSeq maxWait tx polls)
  refine (returned m lower ?_).2 (grown.2 lost)
  exact upper.trans_le ((Nat.le_add_right _ _).trans grown.1)

/-- The polls that are left give back what is held and what they receive exactly when
they are tidy. -/
theorem returned_pollLoop_iff (expectedSeq : UInt16) (maxWait tx : Rat) (polls : List Poll) {numPkts : Nat}
    (holding : Holding first own old t) :
    (pollLoop expectedSeq maxWait tx polls numPkts t).2.Returned first ↔
      Tidy expectedSeq (!own.isEmpty) polls := by
  induction polls generalizing t own old numPkts with
  | nil =>
    rw [pollLoop, Tidy, holding.returned_iff]
    simp
  | cons poll polls ih =>
    by_cases fine : own = [] ∨ poll.batch = []
    · obtain ⟨own', old', next, held⟩ := holding.next fine
      have quiet : (!own.isEmpty) = true → poll.batch = [] := by
        intro arrived
        rcases fine with rfl | silent
        · contradiction
        · exact silent
      unfold pollLoop Tidy
      dsimp only
      rw [and_iff_right quiet]
      split
      · exact ih next.freeAll
      · rename_i timestampedPkt _
        have freed := next.freeAll.returned_iff.mpr rfl
        rw [scan_eq]
        cases found : poll.batch.find? fun buf => buf.Expected expectedSeq timestampedPkt with
        | none => exact (ih next).trans (by rw [held])
        | some buf =>
          dsimp only
          by_cases stamped : buf.Stamped timestampedPkt
          · rw [if_pos stamped]
            cases register : buf.register with
            | none =>
              -- the call returns at once, with the batch in the slots
              rw [next.returned_iff]
              refine iff_of_false (fun empty => ?_) fun tidy => tidy stamped rfl
              subst empty
              have silent : poll.batch = [] := by
                simpa using (Bool.or_eq_false_iff.mp held.symm).2
              rw [silent] at found
              contradiction
            | some rxTs => exact iff_of_true freed fun _ => nofun
          · rw [if_neg stamped]
            exact iff_of_true freed fun now => absurd now stamped
    · obtain ⟨held, arrived⟩ := not_or.mp fine
      exact iff_of_false (holding.not_returned held arrived) fun tidy => arrived (tidy.1 (by simpa using held))

end

/-- The call gives back all mbufs it has received exactly when its polls are tidy. -/
theorem measureLatency_returned_iff {t : Timestamper} (used : Used t) (maxWait : Rat) (tx : Option Rat)
    (polls : List Poll) : (t.measureLatency maxWait tx polls).2.Returned t.received ↔
      (tx ≠ none → Tidy t.seq false polls) := by
  obtain ⟨held, packed⟩ := used.packed
  have start := packed.holding (t.seq + 1)
  cases tx with
  | none =>
    rw [measureLatency, start.returned_iff]
    simp
  | some tx =>
    rw [measureLatency, returned_pollLoop_iff t.seq maxWait tx polls start]
    simp

/-- A batch before the timestamp is there, and then the packet of the call itself. -/
def ownPacketPolls : List Poll := [⟨[⟨7, false, none⟩], none⟩, ⟨[⟨1, true, some 30⟩], some 1⟩]

theorem measureLatency_returned_own : newTimestamper.measureLatency 1 (some 10) ownPacketPolls |>.2.Returned 0 :=
  (measureLatency_returned_iff .new 1 (some 10) ownPacketPolls).mpr fun _ => by
    simp [Tidy, ownPacketPolls, newTimestamper, RxPkt.Expected, RxPkt.Stamped]

/-- A foreign packet with a timestamp: the scan passes over it, and the packet of the
call arrives in the slot that still holds it. -/
def foreignPacketPolls : List Poll := [⟨[⟨7, true, none⟩], some 7⟩, ⟨[⟨1, true, some 30⟩], some 1⟩]

theorem measureLatency_foreign_packet :
    (newTimestamper.measureLatency 1 (some 10) foreignPacketPolls).2.overwritten = [0] ∧
      (newTimestamper.measureLatency 1 (some 10) foreignPacketPolls).2.freed = [1] := by
  decide +kernel

end Timestamper
end MoonGen
