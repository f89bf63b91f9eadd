import MoonGen.Crc.Stream

namespace MoonGen

/-- The time that a packet spends on the wire as a filler; a packet of the load
is not a filler. -/
def TxPkt.fillerTime : TxPkt → Nat
  | .filler f => f.pktLen + 20
  | .load _ => 0

def streamTime (out : List TxPkt) : Nat := (out.map TxPkt.fillerTime).sum

def requestedTime (loadPkts : List LoadPkt) : Nat := (loadPkts.map LoadPkt.udata64).sum

/-- Calls of `moongen_send_all_packets_with_delay_bad_crc` on one thread, one
after another: all packets handed to the NIC, and the state behind. -/
def sendCalls (minPktSize : Nat) (st : CrcState) : List (List LoadPkt) → Option (List TxPkt × CrcState)
  | [] => some ([], st)
  | loadPkts :: calls => do
    let (s, next) ← moongenSendAllPacketsWithDelayBadCrc st loadPkts minPktSize
    let (rest, last) ← sendCalls minPktSize next calls
    some (s.buf.batches.flatten ++ rest, last)

/-- No delay drops a leftover. A delay that comes while bytes are left over
must need one filler at most; the leftover behind it is the sum as long as
that is below the minimum size, and nothing otherwise. -/
def NoDelayLost (minPktSize : Nat) : Nat → List LoadPkt → Prop
  | _, [] => True
  | leftoverDelay, pkt :: loadPkts =>
    (pkt.udata64 = 0 ∨ leftoverDelay = 0 ∨ leftoverDelay + pkt.udata64 < 1538) ∧
      NoDelayLost minPktSize
        (if leftoverDelay + pkt.udata64 < minPktSize then leftoverDelay + pkt.udata64 else 0) loadPkts

theorem streamTime_append (left right : List TxPkt) :
    streamTime (left ++ right) = streamTime left + streamTime right := by
  simp [streamTime]

theorem streamTime_fillers (fillers : List Filler) : streamTime (fillers.map .filler) = fillerTime fillers := by
  simp only [streamTime, fillerTime, List.map_map]
  rfl

theorem lostDelay_eq_zero {leftoverDelay delay : Nat} :
    lostDelay leftoverDelay delay = 0 ↔ delay = 0 ∨ leftoverDelay = 0 ∨ leftoverDelay + delay < 1538 := by
  unfold lostDelay
  split <;> omega

/-- The bytes that a load drops, over all of its delays. -/
def lostDelays (minPktSize : Nat) : Nat → List LoadPkt → Nat
  | _, [] => 0
  | leftoverDelay, pkt :: loadPkts =>
    lostDelay leftoverDelay pkt.udata64 +
      lostDelays minPktSize (fillersFor minPktSize leftoverDelay pkt.udata64).2 loadPkts

section
variable {minPktSize leftoverDelay : Nat} {loadPkts : List LoadPkt}

theorem lostDelays_eq_zero (small : 20 ≤ minPktSize) (large : minPktSize ≤ 463) (fit : DelaysFit loadPkts)
    (below : leftoverDelay < minPktSize) :
    lostDelays minPktSize leftoverDelay loadPkts = 0 ↔ NoDelayLost minPktSize leftoverDelay loadPkts := by
  induction loadPkts generalizing leftoverDelay with
  | nil => simp [lostDelays, NoDelayLost]
  | cons pkt loadPkts ih =>
    obtain ⟨own, others⟩ := List.forall_mem_cons.mp fit
    obtain ⟨_, last, exact⟩ := fillersFor_spec small large own below
    rw [lostDelays, NoDelayLost, Nat.add_eq_zero_iff, ih others last, ← lostDelay_eq_zero]
    constructor
    · intro lossless
      rw [← exact lossless.1]
      exact lossless
    · intro lossless
      rw [exact lossless.1]
      exact lossless

/-- What goes out for a load, the leftover behind it and the loss together make
up the leftover in front of it and the delays. -/
theorem txStream_balance (keep : Nat → Bool) (small : 20 ≤ minPktSize) (large : minPktSize ≤ 463) {i : Nat}
    (fit : DelaysFit loadPkts) (below : leftoverDelay < minPktSize) :
    streamTime (txStream keep minPktSize i leftoverDelay loadPkts).1 +
        (txStream keep minPktSize i leftoverDelay loadPkts).2 + lostDelays minPktSize leftoverDelay loadPkts =
      leftoverDelay + requestedTime loadPkts ∧
    (txStream keep minPktSize i leftoverDelay loadPkts).2 < minPktSize := by
  induction loadPkts generalizing i leftoverDelay with
  | nil => simpa [txStream, lostDelays, requestedTime, streamTime] using below
  | cons pkt loadPkts ih =>
    obtain ⟨own, others⟩ := List.forall_mem_cons.mp fit
    obtain ⟨balance, last, _⟩ := fillersFor_spec small large own below
    obtain ⟨rest, behind⟩ := @ih _ (i + 1) others last
    have packet : streamTime (if keep i then [.load pkt] else []) = 0 := by split <;> rfl
    have requested : requestedTime (pkt :: loadPkts) = pkt.udata64 + requestedTime loadPkts := by simp [requestedTime]
    simp only [txStream, streamTime_append, streamTime_fillers, packet, lostDelays, requested]
    exact ⟨by omega, behind⟩

/-- The losses of two loads, one behind the other. -/
theorem lostDelays_append (keep : Nat → Bool) {i : Nat} {others : List LoadPkt} :
    lostDelays minPktSize leftoverDelay (loadPkts ++ others) = lostDelays minPktSize leftoverDelay loadPkts +
      lostDelays minPktSize (txStream keep minPktSize i leftoverDelay loadPkts).2 others := by
  induction loadPkts generalizing i leftoverDelay with
  | nil => simp [lostDelays, txStream]
  | cons pkt loadPkts ih =>
    simp only [List.cons_append, lostDelays, txStream]
    rw [@ih _ (i + 1), Nat.add_assoc]

end

/-- Over any number of calls the time on the wire, the leftover and the loss
make up what was requested. -/
theorem sendCalls_balance {minPktSize : Nat} (small : 20 ≤ minPktSize) (large : minPktSize ≤ 463)
    {calls : List (List LoadPkt)} (fit : DelaysFit calls.flatten) {st : CrcState}
    (below : st.leftoverDelay < minPktSize) :
    ∃ out last, sendCalls minPktSize st calls = some (out, last) ∧
      streamTime out + last.leftoverDelay + lostDelays minPktSize st.leftoverDelay calls.flatten =
        st.leftoverDelay + requestedTime calls.flatten := by
  induction calls generalizing st with
  | nil => exact ⟨[], st, rfl, by simp [streamTime, lostDelays, requestedTime]⟩
  | cons loadPkts calls ih =>
    obtain ⟨own, others⟩ := List.forall_mem_append.mp fit
    have bounded : st.leftoverDelay < 463 := below.trans_le large
    obtain ⟨s, run, done⟩ := moongenSend_spec large bounded own
    have stream := done.delivered.stream
    have leftover : (st.account s).leftoverDelay = (txStream _ minPktSize 0 st.leftoverDelay loadPkts).2 := done.leftover
    obtain ⟨balance, behind⟩ := txStream_balance (fun _ => true) small large own below
    obtain ⟨out, last, runs, rest⟩ := ih others (leftover.trans_lt behind)
    refine ⟨s.buf.batches.flatten ++ out, last, by simp [sendCalls, run, runs], ?_⟩
    rw [List.flatten_cons, lostDelays_append (fun _ => true), streamTime_append, stream, ← leftover]
    have requested : requestedTime (loadPkts ++ calls.flatten) = requestedTime loadPkts + requestedTime calls.flatten := by
      simp [requestedTime]
    rw [← leftover] at balance
    omega

/-- The fillers on the wire and the last leftover make up the requested delays
exactly when no leftover meets a delay that needs more than one filler. -/
theorem crc_time_conserved_iff {minPktSize : Nat} (small : 20 ≤ minPktSize) (large : minPktSize ≤ 463)
    {calls : List (List LoadPkt)} (fit : DelaysFit calls.flatten) {st : CrcState} (fresh : st.leftoverDelay = 0) :
    ∃ out last, sendCalls minPktSize st calls = some (out, last) ∧
      (requestedTime calls.flatten = streamTime out + last.leftoverDelay ↔ NoDelayLost minPktSize 0 calls.flatten) := by
  have below : st.leftoverDelay < minPktSize := by omega
  obtain ⟨out, last, run, balance⟩ := sendCalls_balance small large fit below
  rw [fresh] at balance
  refine ⟨out, last, run, ?_⟩
  rw [← lostDelays_eq_zero small large fit (by omega)]
  omega

theorem crc_time_conserved_iff_small : ∃ out last,
    sendCalls 84 ⟨0, 0, 0⟩ [[⟨1, 50⟩], [⟨2, 1000⟩, ⟨3, 3000⟩]] = some (out, last) ∧
      (requestedTime [⟨1, 50⟩, ⟨2, 1000⟩, ⟨3, 3000⟩] = streamTime out + last.leftoverDelay ↔
        NoDelayLost 84 0 [⟨1, 50⟩, ⟨2, 1000⟩, ⟨3, 3000⟩]) :=
  @crc_time_conserved_iff 84 (by decide) (by decide) [[⟨1, 50⟩], [⟨2, 1000⟩, ⟨3, 3000⟩]] (by simp [DelaysFit]) ⟨0, 0, 0⟩ rfl

/-- A gap of 50 bytes is left over and then dropped by the gap of 3000 bytes
behind it: the two fillers fill 3000 bytes and nothing is left. -/
theorem crc_time_not_conserved : ∃ out last,
    sendCalls 84 ⟨0, 0, 0⟩ [[⟨1, 50⟩, ⟨2, 3000⟩]] = some (out, last) ∧
      streamTime out + last.leftoverDelay = 3000 ∧ requestedTime [⟨1, 50⟩, ⟨2, 3000⟩] = 3050 := by
  have run : (sendCalls 84 ⟨0, 0, 0⟩ [[⟨1, 50⟩, ⟨2, 3000⟩]]).map
      (fun r => streamTime r.1 + r.2.leftoverDelay) = some 3000 := by decide +kernel
  obtain ⟨⟨out, last⟩, made, time⟩ := Option.map_eq_some_iff.mp run
  exact ⟨out, last, made, time, by decide⟩

end MoonGen
