import MoonGen.Crc.Fillers

namespace MoonGen

open List Option

/-- What should go out for a load whose packet at index `i` is sent when
`keep i` says so: for each packet the fillers of its delay, then the packet.
The second part is the leftover behind the last delay. -/
def txStream (keep : Nat → Bool) (minPktSize : Nat) : Nat → Nat → List LoadPkt → List TxPkt × Nat
  | _, leftoverDelay, [] => ([], leftoverDelay)
  | i, leftoverDelay, pkt :: loadPkts =>
    let (fillers, left) := fillersFor minPktSize leftoverDelay pkt.udata64
    let (rest, last) := txStream keep minPktSize (i + 1) left loadPkts
    (fillers.map .filler ++ ((if keep i then [.load pkt] else []) ++ rest), last)

/-- The packets that are chosen for loss, in order. -/
def droppedPkts (keep : Nat → Bool) : Nat → List LoadPkt → List LoadPkt
  | _, [] => []
  | i, pkt :: loadPkts => (if keep i then [] else [pkt]) ++ droppedPkts keep (i + 1) loadPkts

/-- A call has delivered its load: the batches are the stream, no batch is
larger than the buffer, the chosen packets are freed, and nothing is pending. -/
structure Sender.Delivered (s : Sender) (keep : Nat → Bool) (minPktSize leftoverDelay : Nat)
    (loadPkts : List LoadPkt) : Prop where
  stream : s.buf.batches.flatten = (txStream keep minPktSize 0 leftoverDelay loadPkts).1
  bounded : ∀ batch ∈ s.buf.batches, batch.length ≤ bufSize
  freed : s.freed = droppedPkts keep 0 loadPkts
  nothing : s.buf.pending = []

theorem bufSize_pos : 0 < bufSize := by decide

theorem Sender.write_spec {s : Sender} (tidy : s.buf.Tidy bufSize) (pkt : TxPkt) :
    ∃ after, s.write pkt = some after ∧ after.buf.stream = s.buf.stream ++ [pkt] ∧
      after.leftoverDelay = s.leftoverDelay ∧ after.freed = s.freed ∧
      ∀ now : Bool, (bufSize ≤ after.buf.pending.length → now = true) → (after.flushWhen now).buf.Tidy bufSize := by
  refine ⟨{ s with buf := { s.buf with pending := s.buf.pending ++ [pkt] } }, ?_, ?_, rfl, rfl, fun now full => ?_⟩
  · rw [Sender.write, tidy.write, map_some]
  · simp [BatchBuffer.stream]
  · refine BatchBuffer.flushWhen_tidy ?_ tidy.bounded bufSize_pos full
    have room := tidy.room
    simp only [length_append, length_singleton]
    omega

/-- The delay loop ends, and writes the fillers of the delay with hand-overs in
between. -/
theorem delayLoop_spec (overhead : Nat) {minPktSize fuel delay : Nat} {s : Sender} (large : minPktSize ≤ 463)
    (enough : delay ≤ fuel) (word : delay ≤ 0x0fffffff) (tidy : s.buf.Tidy bufSize) (below : s.leftoverDelay < 463) :
    ∃ after, delayLoop overhead minPktSize fuel delay s = some after ∧ after.buf.Tidy bufSize ∧
      after.leftoverDelay < 463 ∧
      after.buf.stream = s.buf.stream ++ (fillersLoop minPktSize fuel delay s.leftoverDelay).1.map .filler ∧
      after.leftoverDelay = (fillersLoop minPktSize fuel delay s.leftoverDelay).2 ∧ after.freed = s.freed := by
  induction fuel generalizing delay s with
  | zero =>
    have ended : ¬0 < delay := by omega
    exact ⟨s, by simp only [delayLoop, ended, if_false], tidy, below, by simp [fillersLoop], rfl, rfl⟩
  | succ fuel ih =>
    by_cases positive : 0 < delay
    · have lower : (getDelayPktBadCrc s.leftoverDelay delay minPktSize).remDelay < delay ∧
          (getDelayPktBadCrc s.leftoverDelay delay minPktSize).leftoverDelay < 463 :=
        ⟨getDelayPktBadCrc_remDelay_lt (.inr (by omega)) positive, getDelayPktBadCrc_leftover_lt large⟩
      cases step : getDelayPktBadCrc s.leftoverDelay delay minPktSize with
      | mk found rem left =>
        simp only [step] at lower
        simp only [delayLoop, fillersLoop, positive, if_true, step]
        cases found with
        | none =>
          have full : ¬bufSize ≤ s.buf.pending.length := Nat.not_le.mpr tidy.room
          simp only [bind_eq_bind, bind_some, full, decide_false, toList_none, nil_append]
          exact @ih rem { s with leftoverDelay := left } (by omega) (by omega) tidy lower.2
        | some pkt =>
          obtain ⟨wrote, run, stream, leftover, freed, flushed⟩ := Sender.write_spec
            (s := ({ s with leftoverDelay := left } : Sender).countBad (pkt.pktLen + overhead)) tidy (.filler pkt)
          have small : wrote.leftoverDelay < 463 := leftover ▸ lower.2
          obtain ⟨after, rest, ordered, smalls, streams, leftovers, frees⟩ := @ih rem _ (by omega) (by omega)
            (flushed (bufSize ≤ wrote.buf.pending.length) (by simp)) small
          refine ⟨after, by simp only [run, bind_eq_bind, bind_some]; exact rest, ordered, smalls, ?_, ?_, ?_⟩
          · rw [streams]
            simp only [Sender.flushWhen, BatchBuffer.stream_flushWhen, stream, leftover]
            simp [Sender.countBad]
          · rw [leftovers]
            simp only [Sender.flushWhen, leftover]
            rfl
          · exact frees.trans freed
    · simp only [delayLoop, fillersLoop, positive, if_false]
      exact ⟨s, rfl, tidy, below, by simp, rfl, rfl⟩

/-- What a loop over the rest of the load, from index `i` on, has done when
it took the variables from `s` to `after`. -/
structure LoopDone (keep : Nat → Bool) (minPktSize i : Nat) (loadPkts : List LoadPkt) (s after : Sender) : Prop where
  tidy : after.buf.Tidy bufSize
  small : after.leftoverDelay < 463
  stream : after.buf.stream = s.buf.stream ++ (txStream keep minPktSize i s.leftoverDelay loadPkts).1
  leftover : after.leftoverDelay = (txStream keep minPktSize i s.leftoverDelay loadPkts).2
  freed : after.freed = s.freed ++ droppedPkts keep i loadPkts
  same : loadPkts = [] → after = s
  nothing : loadPkts ≠ [] → after.buf.pending = []

theorem LoopDone.nil {keep : Nat → Bool} {minPktSize i : Nat} {s : Sender} (tidy : s.buf.Tidy bufSize)
    (small : s.leftoverDelay < 463) : LoopDone keep minPktSize i [] s s :=
  ⟨tidy, small, by simp [txStream], rfl, by simp [droppedPkts], fun _ => rfl, fun other => absurd rfl other⟩

/-- One round puts the fillers of the delay and then the packet, unless it is
chosen for loss. `delayed` and `packed` are the variables behind the two steps
of the round, before the hand-over that ends it. -/
theorem LoopDone.cons {keep : Nat → Bool} {minPktSize i : Nat} {pkt : LoadPkt} {loadPkts : List LoadPkt}
    {s delayed packed after : Sender} {now : Bool}
    (rest : LoopDone keep minPktSize (i + 1) loadPkts (packed.flushWhen now) after)
    (fillers : delayed.buf.stream = s.buf.stream ++ (fillersFor minPktSize s.leftoverDelay pkt.udata64).1.map .filler)
    (left : delayed.leftoverDelay = (fillersFor minPktSize s.leftoverDelay pkt.udata64).2)
    (early : delayed.freed = s.freed)
    (packet : packed.buf.stream = delayed.buf.stream ++ if keep i then [.load pkt] else [])
    (stays : packed.leftoverDelay = delayed.leftoverDelay)
    (frees : packed.freed = delayed.freed ++ if keep i then [] else [pkt])
    (last : loadPkts = [] → now = true) :
    LoopDone keep minPktSize i (pkt :: loadPkts) s after := by
  have leftover : (packed.flushWhen now).leftoverDelay = (fillersFor minPktSize s.leftoverDelay pkt.udata64).2 :=
    stays.trans left
  refine ⟨rest.tidy, rest.small, ?_, ?_, ?_, by simp, fun _ => ?_⟩
  · rw [rest.stream, leftover]
    simp only [Sender.flushWhen, BatchBuffer.stream_flushWhen, packet, fillers, txStream, append_assoc]
  · rw [rest.leftover, leftover, txStream]
  · rw [rest.freed]
    simp only [Sender.flushWhen, frees, early, droppedPkts, append_assoc]
  · cases loadPkts with
    | nil => rw [rest.same rfl, last rfl]; rfl
    | cons next others => exact rest.nothing (by simp)

/-- Every delay of the load is one that the source does not refuse. -/
def DelaysFit (loadPkts : List LoadPkt) : Prop := ∀ pkt ∈ loadPkts, pkt.udata64 ≤ 0x0fffffff

theorem delayLoop_fillersFor (overhead : Nat) {minPktSize delay : Nat} {s : Sender} (large : minPktSize ≤ 463)
    (word : delay ≤ 0x0fffffff) (tidy : s.buf.Tidy bufSize) (below : s.leftoverDelay < 463) :
    ∃ after, delayLoop overhead minPktSize delay delay s = some after ∧ after.buf.Tidy bufSize ∧
      after.leftoverDelay < 463 ∧
      after.buf.stream = s.buf.stream ++ (fillersFor minPktSize s.leftoverDelay delay).1.map .filler ∧
      after.leftoverDelay = (fillersFor minPktSize s.leftoverDelay delay).2 ∧ after.freed = s.freed :=
  delayLoop_spec overhead large le_rfl word tidy below

/-- Filler sizing: for every delay the loop ends, each filler it writes lasts
at least the minimum size and at most a full frame, the leftover stays below
the minimum size, and a delay of at least that size that meets no leftover is
filled exactly. -/
theorem delayLoop_filler_sizes (overhead : Nat) {minPktSize delay : Nat} {s : Sender} (small : 20 ≤ minPktSize)
    (large : minPktSize ≤ 463) (below : s.leftoverDelay < minPktSize) (word : delay ≤ 0x0fffffff)
    (tidy : s.buf.Tidy bufSize) :
    ∃ after fillers, delayLoop overhead minPktSize delay delay s = some after ∧
      after.buf.stream = s.buf.stream ++ fillers.map .filler ∧
      (∀ f ∈ fillers, minPktSize ≤ f.pktLen + 20 ∧ f.pktLen + 20 ≤ 1538) ∧ after.leftoverDelay < minPktSize ∧
      (s.leftoverDelay = 0 → minPktSize ≤ delay → fillerTime fillers = delay ∧ after.leftoverDelay = 0) := by
  obtain ⟨after, run, _, _, stream, leftover, _⟩ :=
    @delayLoop_fillersFor overhead minPktSize delay s large word tidy (by omega)
  obtain ⟨balance, last, exact⟩ := fillersFor_spec small large word below
  refine ⟨after, _, run, stream, fillersLoop_sizes small large word below, by rw [leftover]; exact last, ?_⟩
  intro zero whole
  rw [zero] at balance exact
  have kept : (fillersFor minPktSize 0 delay).2 = 0 := by
    rw [exact lostDelay_zero, if_neg (by omega)]
  rw [lostDelay_zero, kept] at balance
  rw [leftover, zero]
  exact ⟨by omega, kept⟩

theorem delayLoop_filler_sizes_example : ∃ after fillers,
    delayLoop 24 64 2500 2500 (.start 0) = some after ∧ fillerTime fillers = 2500 ∧ after.leftoverDelay = 0 ∧
      after.buf.stream = fillers.map .filler := by
  obtain ⟨after, fillers, run, stream, _, _, exact⟩ := @delayLoop_filler_sizes 24 64 2500 (.start 0) (by decide)
    (by decide) (by decide) (by decide) (BatchBuffer.tidy_empty bufSize_pos)
  obtain ⟨time, left⟩ := exact rfl (by decide)
  exact ⟨after, fillers, run, time, left, by simpa [Sender.start, BatchBuffer.empty, BatchBuffer.stream] using stream⟩

theorem sendLoop_spec {minPktSize numPkts i : Nat} {loadPkts : List LoadPkt} {s : Sender}
    (large : minPktSize ≤ 463) (fit : DelaysFit loadPkts) (index : i + loadPkts.length = numPkts)
    (tidy : s.buf.Tidy bufSize) (below : s.leftoverDelay < 463) :
    ∃ after, sendLoop minPktSize numPkts i loadPkts s = some after ∧
      LoopDone (fun _ => true) minPktSize i loadPkts s after := by
  induction loadPkts generalizing i s with
  | nil => exact ⟨s, rfl, .nil tidy below⟩
  | cons pkt loadPkts ih =>
    obtain ⟨own, others⟩ := forall_mem_cons.mp fit
    have delay : pkt.udata64 % 2 ^ 32 = pkt.udata64 := by omega
    obtain ⟨delayed, run, ordered, small, fillers, left, early⟩ := delayLoop_fillersFor 24 large own tidy below
    obtain ⟨packed, wrote, stream, stays, frees, flushed⟩ := Sender.write_spec ordered (.load pkt)
    simp only [length_cons] at index
    obtain ⟨after, rest, done⟩ := @ih (i + 1) _ others (by omega)
      (flushed (bufSize ≤ packed.buf.pending.length || i + 1 == numPkts) (by simp +contextual)) (stays.trans_lt small)
    refine ⟨after, ?_, .cons done fillers left early (by simpa using stream) stays (by simpa using frees) ?_⟩
    · simp only [sendLoop, delay, run, wrote, bind_eq_bind, bind_some]
      exact rest
    · rintro rfl
      simp only [length_nil] at index
      simp; omega

theorem sendLossLoop_spec {lossRate : ℚ} {rand : Nat → Nat} {minPktSize numPkts i : Nat} {loadPkts : List LoadPkt}
    {s : Sender} (large : minPktSize ≤ 463) (fit : DelaysFit loadPkts) (index : i + loadPkts.length = numPkts)
    (tidy : s.buf.Tidy bufSize) (below : s.leftoverDelay < 463) :
    ∃ after, sendLossLoop lossRate rand minPktSize numPkts i loadPkts s = some after ∧
      LoopDone (fun i => keepsPkt lossRate (rand i)) minPktSize i loadPkts s after := by
  induction loadPkts generalizing i s with
  | nil => exact ⟨s, rfl, .nil tidy below⟩
  | cons pkt loadPkts ih =>
    obtain ⟨own, others⟩ := forall_mem_cons.mp fit
    have delay : (if pkt.udata64 > 0x0fffffff then 0 else pkt.udata64 % 2 ^ 32) = pkt.udata64 := by
      rw [if_neg (by omega)]
      omega
    obtain ⟨delayed, run, ordered, small, fillers, left, early⟩ := delayLoop_fillersFor 0 large own tidy below
    simp only [length_cons] at index
    have last : loadPkts = [] → i + 1 = numPkts := by
      rintro rfl
      simpa using index
    cases kept : keepsPkt lossRate (rand i) with
    | true =>
      obtain ⟨packed, wrote, stream, stays, frees, flushed⟩ := Sender.write_spec ordered (.load pkt)
      obtain ⟨after, rest, done⟩ := @ih (i + 1) _ others (by omega)
        (flushed (bufSize ≤ packed.buf.pending.length || i + 1 == numPkts) (by simp +contextual))
        (stays.trans_lt small)
      refine ⟨after, ?_, .cons done fillers left early (by simpa [kept] using stream) stays
        (by simpa [kept] using frees) (by simp +contextual [last])⟩
      simp only [sendLossLoop, delay, run, kept, if_true, wrote, bind_eq_bind, bind_some]
      exact rest
    | false =>
      -- nothing is written, and the buffer has room already
      have room := ordered.room
      obtain ⟨after, rest, done⟩ := @ih (i + 1)
        (({ delayed with freed := delayed.freed ++ [pkt] } : Sender).flushWhen
          (bufSize ≤ delayed.buf.pending.length || i + 1 == numPkts)) others (by omega)
        (BatchBuffer.flushWhen_tidy room.le ordered.bounded bufSize_pos (by simp +contextual)) small
      refine ⟨after, ?_, .cons done fillers left early (by simp [kept]) rfl (by simp [kept])
        (by simp +contextual [last])⟩
      simp only [sendLossLoop, delay, run, kept, bind_eq_bind, bind_some]
      exact rest

theorem LoopDone.delivered {keep : Nat → Bool} {minPktSize leftoverDelay : Nat} {loadPkts : List LoadPkt} {s : Sender}
    (done : LoopDone keep minPktSize 0 loadPkts (.start leftoverDelay) s) :
    s.Delivered keep minPktSize leftoverDelay loadPkts := by
  have nothing : s.buf.pending = [] := by
    by_cases empty : loadPkts = []
    · rw [done.same empty]; rfl
    · exact done.nothing empty
  refine ⟨?_, done.tidy.bounded, by simpa [Sender.start] using done.freed, nothing⟩
  have stream := done.stream
  simpa [BatchBuffer.stream, nothing, Sender.start, BatchBuffer.empty] using stream

theorem Sender.start_tidy (leftoverDelay : Nat) : (Sender.start leftoverDelay).buf.Tidy bufSize :=
  BatchBuffer.tidy_empty bufSize_pos

theorem moongenSend_spec {st : CrcState} {loadPkts : List LoadPkt} {minPktSize : Nat} (large : minPktSize ≤ 463)
    (below : st.leftoverDelay < 463) (fit : DelaysFit loadPkts) :
    ∃ s, moongenSendAllPacketsWithDelayBadCrc st loadPkts minPktSize = some (s, st.account s) ∧
      LoopDone (fun _ => true) minPktSize 0 loadPkts (.start st.leftoverDelay) s := by
  obtain ⟨s, run, done⟩ := @sendLoop_spec minPktSize loadPkts.length 0 loadPkts (.start st.leftoverDelay) large fit
    (by omega) (Sender.start_tidy _) below
  exact ⟨s, by rw [moongenSendAllPacketsWithDelayBadCrc, run, map_some], done⟩

/-- `dpdk_send_all_packets` comes back only when the NIC has taken the whole
batch, in order. -/
theorem dpdkSendAllPackets_wire {α : Type} {pkts wire done : List α} {answers : List Nat} {sent : Nat}
    (inside : sent ≤ pkts.length) (before : done = pkts.take sent)
    (run : dpdkSendAllPackets pkts answers sent done = some wire) : wire = pkts := by
  induction answers generalizing sent done with
  | nil => simp [dpdkSendAllPackets] at run
  | cons answer answers ih =>
    have taken : done ++ (pkts.drop sent).take (min answer (pkts.length - sent)) =
        pkts.take (sent + min answer (pkts.length - sent)) := by
      rw [before, take_add]
    simp only [dpdkSendAllPackets, taken] at run
    split at run
    · rename_i all
      rw [← Option.some.inj run, take_of_length_le all]
    · exact ih (by omega) rfl run

/-- Both send functions return, hand on exactly the stream of their load, in
batches that fit the buffer and without an index outside of it, free exactly
the packets chosen for loss, and keep the leftover small for the next call.
Every batch is on the wire when its call returns. -/
theorem crc_send_stream {st : CrcState} {loadPkts : List LoadPkt} {minPktSize : Nat} (large : minPktSize ≤ 463)
    (below : st.leftoverDelay < 463) (fit : DelaysFit loadPkts) (lossRate : ℚ) (rand : Nat → Nat) :
    (∃ s next, moongenSendAllPacketsWithDelayBadCrc st loadPkts minPktSize = some (s, next) ∧
      s.Delivered (fun _ => true) minPktSize st.leftoverDelay loadPkts ∧ next.leftoverDelay < 463) ∧
    (∃ s next, moongenSendAllPacketsWithDelayBadCrcLoss st loadPkts minPktSize lossRate rand = some (s, next) ∧
      s.Delivered (fun i => keepsPkt lossRate (rand i)) minPktSize st.leftoverDelay loadPkts ∧
      next.leftoverDelay < 463) ∧
    ∀ (batch wire : List TxPkt) (answers : List Nat),
      dpdkSendAllPackets batch answers 0 [] = some wire → wire = batch := by
  refine ⟨?_, ?_, fun batch wire answers run => dpdkSendAllPackets_wire (Nat.zero_le _) (by simp) run⟩
  · obtain ⟨s, run, done⟩ := moongenSend_spec large below fit
    exact ⟨s, _, run, done.delivered, done.small⟩
  · obtain ⟨s, run, done⟩ := @sendLossLoop_spec lossRate rand minPktSize loadPkts.length 0 loadPkts
      (.start st.leftoverDelay) large fit (by omega) (Sender.start_tidy _) below
    exact ⟨s, _, by rw [moongenSendAllPacketsWithDelayBadCrcLoss, run, map_some], done.delivered, done.small⟩

theorem crc_send_stream_two : DelaysFit [⟨1, 50⟩, ⟨2, 3000⟩] ∧
    ∃ s next, moongenSendAllPacketsWithDelayBadCrc ⟨0, 0, 0⟩ [⟨1, 50⟩, ⟨2, 3000⟩] 84 = some (s, next) ∧
      s.Delivered (fun _ => true) 84 0 [⟨1, 50⟩, ⟨2, 3000⟩] ∧ next.leftoverDelay < 463 := by
  have fit : DelaysFit [⟨1, 50⟩, ⟨2, 3000⟩] := by simp [DelaysFit]
  exact ⟨fit, (crc_send_stream (by decide) (by decide) fit 0 (fun _ => 0)).1⟩

end MoonGen
