import Mathlib.Algebra.Order.Field.Basic
import Mathlib.Algebra.Order.Ring.Rat
import MoonGen.Crc.Conserve

namespace MoonGen

open Option

/-- The hooked `getTxStats`: what the device counted, less the fillers. -/
def getTxStats (pkts bytes : Int) (st : CrcState) : Int × Int := (pkts - st.badPktsSent, bytes - st.badBytesSent)

/-- How many fillers the delays of a load call for. -/
def fillerCount (minPktSize : Nat) : Nat → List LoadPkt → Nat
  | _, [] => 0
  | leftoverDelay, pkt :: loadPkts =>
    (fillersFor minPktSize leftoverDelay pkt.udata64).1.length +
      fillerCount minPktSize (fillersFor minPktSize leftoverDelay pkt.udata64).2 loadPkts

/-- The variables of the two send functions behind the same steps: they differ
in the bytes counted, by 24 for each filler. -/
structure Sender.Twin (fillers : Nat) (plain loss : Sender) : Prop where
  buf : plain.buf = loss.buf
  leftoverDelay : plain.leftoverDelay = loss.leftoverDelay
  numBadPkts : plain.numBadPkts = loss.numBadPkts
  freed : plain.freed = loss.freed
  numBadBytes : plain.numBadBytes = (loss.numBadBytes + 24 * fillers) % 2 ^ 32
  word : loss.numBadBytes < 2 ^ 32

namespace Sender.Twin

variable {fillers : Nat} {plain loss : Sender}
section
variable (twin : Twin fillers plain loss)

include twin

theorem flushWhen (now : Bool) : Twin fillers (plain.flushWhen now) (loss.flushWhen now) :=
  ⟨by rw [Sender.flushWhen, Sender.flushWhen, twin.buf], twin.leftoverDelay, twin.numBadPkts, twin.freed,
    twin.numBadBytes, twin.word⟩

theorem setLeftover (left : Nat) :
    Twin fillers { plain with leftoverDelay := left } { loss with leftoverDelay := left } :=
  ⟨twin.buf, rfl, twin.numBadPkts, twin.freed, twin.numBadBytes, twin.word⟩

theorem countBad (numBytes : Nat) :
    Twin (fillers + 1) (plain.countBad (numBytes + 24)) (loss.countBad (numBytes + 0)) := by
  refine ⟨twin.buf, twin.leftoverDelay, ?_, twin.freed, ?_, Nat.mod_lt _ (by omega)⟩
  · simp only [Sender.countBad, twin.numBadPkts]
  · have bytes := twin.numBadBytes
    simp only [Sender.countBad]
    omega

/-- There is room in one buffer when there is room in the other. -/
theorem write (tidy : loss.buf.Tidy bufSize) (pkt : TxPkt) :
    ∃ plain' loss', plain.write pkt = some plain' ∧ loss.write pkt = some loss' ∧ Twin fillers plain' loss' ∧
      loss'.leftoverDelay = loss.leftoverDelay ∧
      ∀ now : Bool, (bufSize ≤ loss'.buf.pending.length → now = true) → (loss'.flushWhen now).buf.Tidy bufSize := by
  have room : plain.buf.Tidy bufSize := twin.buf ▸ tidy
  obtain ⟨loss', wrote, _, stays, _, flushed⟩ := Sender.write_spec tidy pkt
  obtain ⟨plain', other, _⟩ := Sender.write_spec room pkt
  refine ⟨plain', loss', other, wrote, ?_, stays, flushed⟩
  rw [Sender.write, room.write, map_some] at other
  rw [Sender.write, tidy.write, map_some] at wrote
  cases Option.some.inj other
  cases Option.some.inj wrote
  exact ⟨by rw [twin.buf], twin.leftoverDelay, twin.numBadPkts, twin.freed, twin.numBadBytes, twin.word⟩
end

end Sender.Twin

/-- The delay loops of the two functions take the same rounds, for every
leftover and every minimum size that is not zero. -/
theorem delayLoop_twin {minPktSize fuel delay fillers : Nat} {plain loss : Sender} (sized : 0 < minPktSize)
    (enough : delay ≤ fuel) (tidy : loss.buf.Tidy bufSize) (twin : plain.Twin fillers loss) :
    ∃ plain' loss', delayLoop 24 minPktSize fuel delay plain = some plain' ∧
      delayLoop 0 minPktSize fuel delay loss = some loss' ∧ loss'.buf.Tidy bufSize ∧
      plain'.Twin (fillers + (fillersLoop minPktSize fuel delay loss.leftoverDelay).1.length) loss' ∧
      loss'.leftoverDelay = (fillersLoop minPktSize fuel delay loss.leftoverDelay).2 := by
  induction fuel generalizing delay fillers plain loss with
  | zero =>
    have ended : ¬0 < delay := by omega
    exact ⟨plain, loss, by simp only [delayLoop, ended, if_false], by simp only [delayLoop, ended, if_false], tidy,
      twin, rfl⟩
  | succ fuel ih =>
    by_cases positive : 0 < delay
    · have lower : (getDelayPktBadCrc loss.leftoverDelay delay minPktSize).remDelay < delay :=
        getDelayPktBadCrc_remDelay_lt (.inl sized) positive
      have same := twin.leftoverDelay
      cases step : getDelayPktBadCrc loss.leftoverDelay delay minPktSize with
      | mk found rem left =>
        simp only [step] at lower
        simp only [delayLoop, fillersLoop, positive, if_true, same, step]
        cases found with
        | none =>
          have full : ¬bufSize ≤ loss.buf.pending.length := Nat.not_le.mpr tidy.room
          have other : ¬bufSize ≤ plain.buf.pending.length := twin.buf ▸ full
          simp only [bind_eq_bind, bind_some, full, other, decide_false, toList_none, List.nil_append]
          exact @ih rem fillers _ _ (by omega) tidy ((twin.setLeftover left).flushWhen false)
        | some pkt =>
          obtain ⟨plain', loss', wrote, other, pair, stays, flushed⟩ :=
            ((twin.setLeftover left).countBad pkt.pktLen).write tidy (.filler pkt)
          simp only [wrote, other, bind_eq_bind, bind_some, pair.buf]
          have next := pair.flushWhen (bufSize ≤ loss'.buf.pending.length)
          have room := flushed (bufSize ≤ loss'.buf.pending.length) (by simp)
          obtain ⟨last, last', run, run', ordered, twins, leftover⟩ := @ih rem _ _ _ (by omega) room next
          have left' : (loss'.flushWhen (bufSize ≤ loss'.buf.pending.length)).leftoverDelay = left := stays
          rw [left'] at twins leftover
          refine ⟨last, last', run, run', ordered, ?_, leftover⟩
          simpa [Nat.add_assoc, Nat.add_comm, Nat.add_left_comm] using twins
    · simp only [delayLoop, fillersLoop, positive, if_false]
      exact ⟨plain, loss, rfl, rfl, tidy, twin, rfl⟩

theorem keepsPkt_of_nonpos {lossRate : ℚ} (lossless : lossRate ≤ 0) (rand : Nat) : keepsPkt lossRate rand = true := by
  have drawn : (0 : ℚ) ≤ (rand : ℚ) / (randMax : ℚ) := div_nonneg (Nat.cast_nonneg _) (Nat.cast_nonneg _)
  exact decide_eq_true (lossless.trans drawn)

theorem sendLoop_twin {lossRate : ℚ} (lossless : lossRate ≤ 0) (rand : Nat → Nat) {minPktSize numPkts i fillers : Nat}
    {loadPkts : List LoadPkt} {plain loss : Sender} (sized : 0 < minPktSize) (fit : DelaysFit loadPkts)
    (tidy : loss.buf.Tidy bufSize) (twin : plain.Twin fillers loss) :
    ∃ plain' loss', sendLoop minPktSize numPkts i loadPkts plain = some plain' ∧
      sendLossLoop lossRate rand minPktSize numPkts i loadPkts loss = some loss' ∧
      plain'.Twin (fillers + fillerCount minPktSize loss.leftoverDelay loadPkts) loss' := by
  induction loadPkts generalizing i fillers plain loss with
  | nil => exact ⟨plain, loss, rfl, rfl, twin⟩
  | cons pkt loadPkts ih =>
    obtain ⟨own, others⟩ := List.forall_mem_cons.mp fit
    have delay : pkt.udata64 % 2 ^ 32 = pkt.udata64 := by omega
    have allowed : ¬pkt.udata64 > 0x0fffffff := by omega
    obtain ⟨plain₁, loss₁, run, run', ordered, twins, left⟩ :=
      @delayLoop_twin minPktSize pkt.udata64 pkt.udata64 fillers plain loss sized le_rfl tidy twin
    obtain ⟨plain₂, loss₂, wrote, wrote', pair, stays, flushed⟩ := twins.write ordered (.load pkt)
    have next := pair.flushWhen (bufSize ≤ loss₂.buf.pending.length || i + 1 == numPkts)
    have room := flushed (bufSize ≤ loss₂.buf.pending.length || i + 1 == numPkts) (by simp +contextual)
    obtain ⟨last, last', rest, rest', final⟩ := @ih (i + 1) _ _ _ others room next
    refine ⟨last, last', ?_, ?_, ?_⟩
    · simp only [sendLoop, delay, run, wrote, pair.buf, bind_eq_bind, bind_some]
      exact rest
    · simp only [sendLossLoop, allowed, if_false, delay, run', keepsPkt_of_nonpos lossless, if_true, wrote',
        bind_eq_bind, bind_some]
      exact rest'
    · have leftover : (loss₂.flushWhen (bufSize ≤ loss₂.buf.pending.length || i + 1 == numPkts)).leftoverDelay =
          (fillersFor minPktSize loss.leftoverDelay pkt.udata64).2 := stays.trans left
      rw [leftover] at final
      rw [fillerCount, ← Nat.add_assoc]
      exact final

section
variable {minPktSize leftoverDelay delay : Nat}

theorem fillersFor_eq_nil (word : leftoverDelay + delay < 2 ^ 64) :
    (fillersFor minPktSize leftoverDelay delay).1 = [] ↔ delay = 0 ∨ leftoverDelay + delay < minPktSize := by
  cases delay with
  | zero => simp [fillersFor]
  | succ less =>
    by_cases short : leftoverDelay + (less + 1) < minPktSize
    · simp [fillersFor, fillersLoop, getDelayPktBadCrc_short word short, short]
    · have sum : (less + 1 + leftoverDelay) % 2 ^ 64 = leftoverDelay + (less + 1) := by omega
      have found : ∃ pkt, (getDelayPktBadCrc leftoverDelay (less + 1) minPktSize).pkt = some pkt := by
        simp only [getDelayPktBadCrc, sum, short, if_false]
        exact ⟨_, rfl⟩
      obtain ⟨pkt, found⟩ := found
      simp [fillersFor, fillersLoop, found, short]

theorem fillersFor_left (word : leftoverDelay + delay < 2 ^ 64)
    (small : delay = 0 ∨ leftoverDelay + delay < minPktSize) :
    (fillersFor minPktSize leftoverDelay delay).2 = leftoverDelay + delay := by
  cases delay with
  | zero => simp [fillersFor]
  | succ less =>
    have short : leftoverDelay + (less + 1) < minPktSize := by simpa using small
    simp [fillersFor, fillersLoop, getDelayPktBadCrc_short word short]

/-- A load calls for no filler exactly when it asks for no delay at all or when
its delays and the leftover do not reach the minimum size. -/
theorem fillerCount_eq_zero {loadPkts : List LoadPkt} (word : leftoverDelay + requestedTime loadPkts < 2 ^ 64) :
    fillerCount minPktSize leftoverDelay loadPkts = 0 ↔
      requestedTime loadPkts = 0 ∨ leftoverDelay + requestedTime loadPkts < minPktSize := by
  induction loadPkts generalizing leftoverDelay with
  | nil => simp [fillerCount, requestedTime]
  | cons pkt loadPkts ih =>
    have requested : requestedTime (pkt :: loadPkts) = pkt.udata64 + requestedTime loadPkts := by simp [requestedTime]
    rw [requested] at word ⊢
    have own := @fillersFor_eq_nil minPktSize leftoverDelay pkt.udata64 (by omega)
    rw [fillerCount, Nat.add_eq_zero_iff, List.length_eq_zero_iff, own]
    constructor
    · rintro ⟨below, rest⟩
      have left := fillersFor_left (by omega) below
      rw [left, ih (by omega)] at rest
      omega
    · intro small
      have below : pkt.udata64 = 0 ∨ leftoverDelay + pkt.udata64 < minPktSize := by omega
      have left := fillersFor_left (by omega) below
      refine ⟨below, ?_⟩
      rw [left, ih (by omega)]
      omega

end

/-- Two send calls agree: the same packets in the same batches, the same amounts
for the counters of the port, and so the same statistics. -/
structure SendsAgree (plain loss : Sender × CrcState) : Prop where
  emitted : plain.1.buf.batches = loss.1.buf.batches
  badPkts : plain.1.numBadPkts = loss.1.numBadPkts
  badBytes : plain.1.numBadBytes = loss.1.numBadBytes
  stats : ∀ pkts bytes, getTxStats pkts bytes plain.2 = getTxStats pkts bytes loss.2

theorem overhead_vanishes {bytes fillers : Nat} (word : bytes < 2 ^ 32) :
    (bytes + 24 * fillers) % 2 ^ 32 = bytes ↔ 2 ^ 29 ∣ fillers := by
  have scale : (2 : Nat) ^ 32 = 8 * 2 ^ 29 := pow_add 2 3 29
  have factor : 24 * fillers = 8 * (3 * fillers) := by rw [← Nat.mul_assoc]
  have coprime : Nat.Coprime (2 ^ 29) 3 := Nat.Coprime.pow_left 29 (by decide)
  constructor
  · intro same
    have division := Nat.div_add_mod (bytes + 24 * fillers) (2 ^ 32)
    rw [same, Nat.add_comm, scale, factor, Nat.mul_assoc] at division
    have multiple := Nat.eq_of_mul_eq_mul_left (by decide) (Nat.add_left_cancel division)
    exact coprime.dvd_of_dvd_mul_left ⟨_, multiple.symm⟩
  · rintro ⟨times, rfl⟩
    have overhead : 24 * (2 ^ 29 * times) = 2 ^ 32 * (3 * times) := by
      rw [factor, scale, Nat.mul_left_comm 3, Nat.mul_assoc]
    rw [overhead, Nat.add_mul_mod_self_left, Nat.mod_eq_of_lt word]

/-- Without losses the two send functions return and emit the same packets, and
they agree in all they count exactly when the bytes of the fillers' overhead
vanish in the 32-bit counter. -/
theorem crc_send_functions_agree_iff {minPktSize : Nat} (small : 20 ≤ minPktSize) {loadPkts : List LoadPkt}
    (fit : DelaysFit loadPkts) (st : CrcState) {lossRate : ℚ} (lossless : lossRate ≤ 0) (rand : Nat → Nat) :
    ∃ plain loss, moongenSendAllPacketsWithDelayBadCrc st loadPkts minPktSize = some plain ∧
      moongenSendAllPacketsWithDelayBadCrcLoss st loadPkts minPktSize lossRate rand = some loss ∧
      plain.1.buf = loss.1.buf ∧ plain.1.numBadPkts = loss.1.numBadPkts ∧
      (SendsAgree plain loss ↔ 2 ^ 29 ∣ fillerCount minPktSize st.leftoverDelay loadPkts) := by
  have start : (Sender.start st.leftoverDelay).Twin 0 (.start st.leftoverDelay) :=
    ⟨rfl, rfl, rfl, rfl, rfl, Nat.two_pow_pos 32⟩
  obtain ⟨plain, loss, run, run', twin⟩ := @sendLoop_twin lossRate lossless rand minPktSize loadPkts.length 0 0 loadPkts
    _ _ (by omega) fit (Sender.start_tidy _) start
  have bytes : plain.numBadBytes =
      (loss.numBadBytes + 24 * fillerCount minPktSize st.leftoverDelay loadPkts) % 2 ^ 32 := by
    simpa [Sender.start] using twin.numBadBytes
  have same : plain.numBadBytes = loss.numBadBytes ↔ 2 ^ 29 ∣ fillerCount minPktSize st.leftoverDelay loadPkts := by
    rw [bytes]
    exact overhead_vanishes twin.word
  refine ⟨(plain, st.account plain), (loss, st.account loss), ?_, ?_, twin.buf, twin.numBadPkts, ?_, ?_⟩
  · rw [moongenSendAllPacketsWithDelayBadCrc, run, map_some]
  · rw [moongenSendAllPacketsWithDelayBadCrcLoss, run', map_some]
  · intro agree
    exact same.mp agree.badBytes
  · intro cancel
    refine ⟨by rw [twin.buf], twin.numBadPkts, same.mpr cancel, fun pkts bytes => ?_⟩
    simp only [getTxStats, CrcState.account, same.mpr cancel, twin.numBadPkts]

theorem crc_send_functions_agree_iff_short : DelaysFit [⟨1, 30⟩, ⟨2, 40⟩] ∧
    fillerCount 84 0 [⟨1, 30⟩, ⟨2, 40⟩] = 0 ∧ ∃ plain loss,
      moongenSendAllPacketsWithDelayBadCrc ⟨0, 0, 0⟩ [⟨1, 30⟩, ⟨2, 40⟩] 84 = some plain ∧
      moongenSendAllPacketsWithDelayBadCrcLoss ⟨0, 0, 0⟩ [⟨1, 30⟩, ⟨2, 40⟩] 84 0 (fun _ => 7) = some loss ∧
      SendsAgree plain loss := by
  have fit : DelaysFit [⟨1, 30⟩, ⟨2, 40⟩] := by simp [DelaysFit]
  have zero : fillerCount 84 0 [⟨1, 30⟩, ⟨2, 40⟩] = 0 := (fillerCount_eq_zero (by decide)).mpr (.inr (by decide))
  obtain ⟨plain, loss, run, run', _, _, agree⟩ :=
    @crc_send_functions_agree_iff 84 (by decide) _ fit ⟨0, 0, 0⟩ 0 le_rfl fun _ => 7
  exact ⟨fit, zero, plain, loss, run, run', agree.mpr (by rw [zero]; exact Nat.dvd_zero _)⟩

/-- A gap of 100 bytes takes one filler of 80 bytes. One function counts 104
bytes for it and the other 80. -/
theorem crc_send_functions_disagree : ∃ plain loss,
    moongenSendAllPacketsWithDelayBadCrc ⟨0, 0, 0⟩ [⟨1, 100⟩] 84 = some plain ∧
      moongenSendAllPacketsWithDelayBadCrcLoss ⟨0, 0, 0⟩ [⟨1, 100⟩] 84 0 (fun _ => 7) = some loss ∧
      plain.2.badBytesSent = 104 ∧ loss.2.badBytesSent = 80 ∧ ¬SendsAgree plain loss := by
  have run : (moongenSendAllPacketsWithDelayBadCrc ⟨0, 0, 0⟩ [⟨1, 100⟩] 84).map
      (fun r => (r.1.numBadBytes, r.2.badBytesSent)) = some (104, 104) := by decide +kernel
  have run' : (moongenSendAllPacketsWithDelayBadCrcLoss ⟨0, 0, 0⟩ [⟨1, 100⟩] 84 0 (fun _ => 7)).map
      (fun r => (r.1.numBadBytes, r.2.badBytesSent)) = some (80, 80) := by decide +kernel
  obtain ⟨plain, made, counted⟩ := map_eq_some_iff.mp run
  obtain ⟨loss, made', counted'⟩ := map_eq_some_iff.mp run'
  obtain ⟨bytes, total⟩ := Prod.mk.inj counted
  obtain ⟨bytes', total'⟩ := Prod.mk.inj counted'
  refine ⟨plain, loss, made, made', total, total', fun agree => ?_⟩
  have same := agree.badBytes
  rw [bytes, bytes'] at same
  exact absurd same (by decide)

end MoonGen
