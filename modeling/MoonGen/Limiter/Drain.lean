import MoonGen.Limiter.Loops

namespace MoonGen

open List

namespace Limiter

variable {D : Type}

/-- The packets taken from the ring and not sent yet. -/
@[simp]
def Pc.held : Pc → List PacedMbuf
  | .batch bufs => bufs
  | .packet _ rest => rest
  | .spin _ buf rest | .transmit _ buf rest | .refused _ buf rest => buf :: rest
  | _ => []

/-- The packets of the batch, which are counted at its end. -/
@[simp]
def Pc.uncounted : Pc → Nat
  | .batch bufs => bufs.length
  | .packet n _ | .spin n _ _ | .transmit n _ _ | .refused n _ _ | .count n => n
  | _ => 0

/-- The loop works on a batch, or it left one. -/
def Pc.sending : Pc → Bool
  | .packet _ _ | .spin _ _ _ | .transmit _ _ _ | .refused _ _ _ | .count _ | .returned .refused | .undefined => true
  | _ => false

/-- The loop neither dropped packets that the device refused nor failed. -/
@[simp]
def Pc.live : Pc → Bool
  | .returned .refused | .undefined => false
  | _ => true

/-- The ring has given nothing, and the loop is not back at its head since. -/
@[simp]
def Pc.emptyHanded : Pc → Bool
  | .batch bufs => bufs.isEmpty
  | .idle | .returned .idle => true
  | _ => false

/-- Where every packet is: sent, in the hands of the loop, or in the ring. -/
structure Ledger (l : Limiter D) (s : State) : Prop where
  stored : s.enqueued = s.sent ++ (s.pc.held ++ s.ring.items)
  counted : s.ctl.count + .ofNat s.pc.uncounted = .ofNat (s.sent.length + s.pc.held.length)
  whole : l.halving = false → limiterBatchSize ∣ s.sent.length + s.pc.held.length

/-- What holds once `stop` is set, given how it was set. -/
structure Stopped (l : Limiter D) (s : State) : Prop where
  whole : l.halving = false → limiterBatchSize ∣ s.enqueued.length
  emptied : s.pc.emptyHanded → s.ring.items = []

structure Draining (l : Limiter D) (s : State) : Prop where
  ledger : s.pc.live → l.Ledger s
  size : ∀ size, s.pc = .dequeue size → 0 < size ∧ (l.halving = false → size = limiterBatchSize)
  stopped : s.ctl.stop ≠ 0 → s.pc.live → l.Stopped s
  idle : s.pc = .returned .idle → s.isRunning → s.ctl.stop ≠ 0

/-- `stop` finds the loop able to send the rest: a loop that does not halve its
batches has whole ones left, and one that found the ring empty still would. -/
def StopsDrained (l : Limiter D) (s : State) : Act D → Prop
  | .stop => (l.halving = false → limiterBatchSize ∣ s.enqueued.length) ∧ (s.pc.emptyHanded → s.ring.items = [])
  | _ => True

instance (l : Limiter D) (s : State) : (a : Act D) → Decidable (l.StopsDrained s a)
  | .stop => inferInstanceAs (Decidable (_ ∧ _))
  | .run _ _ | .enqueue _ | .quit | .tick _ => inferInstanceAs (Decidable True)

/-- The packets of the producer have left in order, and `count` is their number. -/
def State.Drained (s : State) : Prop :=
  s.sent = s.enqueued ∧ s.ctl.count = .ofNat s.enqueued.length

theorem Pc.emptyHanded_of_sending {pc : Pc} (sending : pc.sending) : pc.emptyHanded = false := by
  unfold Pc.sending at sending
  split at sending
  all_goals first | rfl | cases sending

theorem ringDequeue_items (ring : RteRing PacedMbuf) (n : Nat) :
    (ringDequeue ring n).1 ++ (ringDequeue ring n).2.items = ring.items := by
  unfold ringDequeue rteRingScDequeueBulk
  split
  · exact take_append_drop n ring.items
  · rfl

theorem ringDequeue_length {ring after : RteRing PacedMbuf} {n : Nat} {buf : PacedMbuf} {bufs : List PacedMbuf}
    (taken : ringDequeue ring n = (buf :: bufs, after)) : (buf :: bufs).length = n := by
  unfold ringDequeue rteRingScDequeueBulk at taken
  split at taken
  · rename_i enough
    rw [← (Prod.mk.inj taken).1, length_take]
    exact Nat.min_eq_left enough
  · simp at taken

theorem ringDequeue_nil {ring after : RteRing PacedMbuf} {n : Nat} (positive : 0 < n)
    (taken : ringDequeue ring n = ([], after)) : after = ring ∧ ring.items.length < n := by
  unfold ringDequeue rteRingScDequeueBulk at taken
  split at taken
  · rename_i enough
    have empty := congrArg List.length (Prod.mk.inj taken).1
    rw [length_take, length_nil, BoundedFifo.count] at *
    omega
  · rename_i few
    obtain ⟨-, rfl⟩ := Prod.mk.inj taken
    exact ⟨rfl, by simpa [BoundedFifo.count] using few⟩

theorem ringEnqueue_items {ring after : RteRing PacedMbuf} {bufs : List PacedMbuf} {k : Nat}
    (put : ringEnqueue ring bufs = (k + 1, after)) : after.items = ring.items ++ bufs := by
  unfold ringEnqueue rteRingSpEnqueueBulk at put
  split at put
  · rename_i fit
    obtain ⟨-, rfl⟩ := Prod.mk.inj put
    exact ring.enqueue_items fit
  · simp at put

section
variable {l : Limiter D} {s after : State}

theorem Ledger.take {size : Nat} {buf : PacedMbuf} {bufs : List PacedMbuf} {ring : RteRing PacedMbuf}
    (ledger : l.Ledger s) (pc : s.pc = .dequeue size) (full : l.halving = false → size = limiterBatchSize)
    (taken : ringDequeue s.ring size = (buf :: bufs, ring)) :
    l.Ledger { s with ring, pc := .batch (buf :: bufs) } := by
  obtain ⟨stored, counted, whole⟩ := ledger
  have items := ringDequeue_items s.ring size
  have length := ringDequeue_length taken
  rw [taken] at items
  simp only [pc, Pc.held, Pc.uncounted, nil_append, length_nil, Nat.add_zero] at stored counted whole
  constructor
  · rw [stored, ← items]
    rfl
  · rw [UInt64.ofNat_add, ← counted]
    simp
  · intro fixed
    have batch : (buf :: bufs).length = limiterBatchSize := length.trans (full fixed)
    change _ ∣ s.sent.length + (buf :: bufs).length
    rw [batch]
    exact Nat.dvd_add (whole fixed) (Nat.dvd_refl _)

theorem Ledger.send {n : Nat} {buf : PacedMbuf} {rest : List PacedMbuf} (ledger : l.Ledger s)
    (pc : s.pc = .transmit n buf rest) :
    l.Ledger { s with sent := s.sent ++ [buf], pc := .packet n rest } := by
  obtain ⟨stored, counted, whole⟩ := ledger
  have total : (s.sent ++ [buf]).length + rest.length = s.sent.length + (buf :: rest).length := by
    simp only [length_append, length_cons, length_nil]
    omega
  simp only [pc, Pc.held, Pc.uncounted] at stored counted whole
  constructor
  · simp [stored]
  · simp only [Pc.held, Pc.uncounted, total, counted]
  · simpa only [Pc.held, total] using whole

theorem Ledger.count {n : Nat} (ledger : l.Ledger s) (pc : s.pc = .count n) :
    l.Ledger { s with ctl := s.ctl.countPackets n, pc := .head } := by
  obtain ⟨stored, counted, whole⟩ := ledger
  simp only [pc, Pc.held, Pc.uncounted] at stored counted whole
  exact ⟨stored, by simpa [LimiterControl.countPackets] using counted, whole⟩

section
variable (draining : l.Draining s)

include draining

/-- A step that moves no packet: it changes only where the loop stands, and when
the next packet is due. -/
theorem Draining.move (nextSend : UInt64) (pc : Pc)
    (alike : pc.live → s.pc.live ∧ pc.held = s.pc.held ∧ pc.uncounted = s.pc.uncounted)
    (size : ∀ size, pc = .dequeue size → 0 < size ∧ (l.halving = false → size = limiterBatchSize))
    (emptied : s.ctl.stop ≠ 0 → pc.emptyHanded → s.pc.emptyHanded ∨ s.ring.items = [])
    (idle : pc = .returned .idle → s.running = false) :
    l.Draining { s with nextSend, pc } where
  ledger live := by
    obtain ⟨old, held, uncounted⟩ := alike live
    obtain ⟨stored, counted, whole⟩ := draining.ledger old
    rw [← held] at stored counted whole
    rw [← uncounted] at counted
    exact ⟨stored, counted, whole⟩
  size := size
  stopped set live := by
    obtain ⟨whole, before⟩ := draining.stopped set (alike live).1
    exact ⟨whole, fun empty => (emptied set empty).elim before id⟩
  idle returned running := by
    have down := idle returned
    simp only [State.running, Bool.and_eq_false_iff, beq_eq_false_iff_ne] at down
    simpa [show s.isRunning = true from running] using down

theorem Draining.onward (nextSend : UInt64) {pc : Pc} (sending : pc.sending)
    (alike : pc.live → s.pc.live ∧ pc.held = s.pc.held ∧ pc.uncounted = s.pc.uncounted) :
    l.Draining { s with nextSend, pc } := by
  refine draining.move nextSend pc alike ?_ ?_ ?_
  · rintro size rfl
    cases sending
  · intro _ empty
    rw [Pc.emptyHanded_of_sending sending] at empty
    cases empty
  · rintro rfl
    cases sending

/-- A step that moves packets leaves the loop with something to do. -/
theorem Draining.shift (live : s.pc.live) (ledger : l.Ledger after)
    (enqueued : after.enqueued = s.enqueued) (stop : after.ctl.stop = s.ctl.stop)
    (busy : after.pc.emptyHanded = false) (size : ∀ size, after.pc ≠ .dequeue size) : l.Draining after where
  ledger _ := ledger
  size next pc := absurd pc (size next)
  stopped set _ := by
    rw [stop] at set
    refine ⟨?_, fun empty => absurd empty (by rw [busy]; exact Bool.false_ne_true)⟩
    rw [enqueued]
    exact (draining.stopped set live).whole
  idle returned := by
    rw [returned] at busy
    cases busy

/-- After the last attempt of a stopped limiter the ring is empty: the attempt
was for one packet, or what is in the ring comes in whole batches. -/
theorem Draining.emptied {size : Nat} (pc : s.pc = .dequeue size)
    (few : s.ring.items.length < size) (last : l.halving = true → size ≤ 1) (set : s.ctl.stop ≠ 0) :
    s.ring.items = [] := by
  have live : s.pc.live := by rw [pc]; rfl
  obtain ⟨stored, -, whole⟩ := draining.ledger live
  have enqueued := (draining.stopped set live).whole
  have full := (draining.size size pc).2
  rw [stored] at enqueued
  simp only [pc, Pc.held, nil_append, length_nil, length_append, Nat.add_zero] at enqueued whole
  apply eq_nil_of_length_eq_zero
  cases halving : l.halving with
  | true =>
    have one := last halving
    omega
  | false =>
    have rest := (Nat.dvd_add_right (whole halving)).mp (enqueued halving)
    rw [full halving] at few
    exact Nat.eq_zero_of_dvd_of_lt rest few

theorem Draining.dequeue {size : Nat} (pc : s.pc = .dequeue size) (accepted : Bool)
    (draw : D) : l.Draining (l.run accepted draw s) := by
  obtain ⟨positive, full⟩ := draining.size size pc
  have live : s.pc.live := by rw [pc]; rfl
  simp only [Limiter.run, pc]
  split
  · rename_i ring taken
    obtain ⟨rfl, few⟩ := ringDequeue_nil positive taken
    cases again : l.halving && decide (1 < size) with
    | true =>
      simp only [Bool.and_eq_true, decide_eq_true_eq] at again
      refine draining.move s.nextSend _ ?_ ?_ ?_ ?_
      · simp [pc]
      · rintro next ⟨⟩
        exact ⟨by omega, by simp [again.1]⟩
      · simp
      · simp
    | false =>
      have last : l.halving = true → size ≤ 1 := by
        simpa using again
      refine draining.move s.nextSend _ ?_ ?_ ?_ ?_
      · simp [pc]
      · simp
      · exact fun set _ => .inr (draining.emptied pc few last set)
      · simp
  · rename_i buf bufs ring taken
    exact draining.shift live ((draining.ledger live).take pc full taken) rfl rfl rfl (by simp)

theorem Draining.run (accepted : Bool) (draw : D) : l.Draining (l.run accepted draw s) := by
  cases state : s.pc with
  | dequeue size => exact draining.dequeue state accepted draw
  | head =>
    simp only [Limiter.run, state]
    refine draining.move s.nextSend _ ?_ ?_ ?_ ?_
    · split <;> simp [state]
    · split <;> simp [limiterBatchSize]
    · split <;> simp
    · split <;> simp
  | batch bufs =>
    simp only [Limiter.run, state]
    split
    · exact draining.onward s.nextSend rfl (by simp)
    · rename_i nextSend _
      refine draining.move nextSend _ ?_ ?_ ?_ ?_
      · split <;> simp_all
      · split <;> simp
      · split <;> simp_all
      · split <;> simp
  | packet n rest =>
    cases rest with
    | nil =>
      simp only [Limiter.run, state]
      exact draining.onward s.nextSend rfl (by simp [state])
    | cons buf rest =>
      simp only [Limiter.run, state]
      split
      · exact draining.onward s.nextSend rfl (by simp)
      · exact draining.onward _ rfl (by simp [state])
  | spin n buf rest =>
    simp only [Limiter.run, state]
    split
    · exact draining
    · exact draining.onward _ rfl (by simp [state])
  | transmit n buf rest =>
    have live : s.pc.live := by rw [state]; rfl
    simp only [Limiter.run, state]
    split
    · exact draining.shift live ((draining.ledger live).send state) rfl rfl rfl (by simp)
    · exact draining.onward s.nextSend rfl (by simp [state])
  | refused n buf rest =>
    simp only [Limiter.run, state]
    split
    · exact draining.onward s.nextSend rfl (by simp [state])
    · exact draining.onward s.nextSend rfl (by simp)
  | count n =>
    have live : s.pc.live := by rw [state]; rfl
    simp only [Limiter.run, state]
    exact draining.shift live ((draining.ledger live).count state) rfl rfl rfl (by simp)
  | idle =>
    simp only [Limiter.run, state]
    refine draining.move s.nextSend _ ?_ ?_ ?_ ?_
    · split <;> simp [state]
    · split <;> simp
    · exact fun _ _ => .inl (by rw [state]; rfl)
    · split <;> simp_all
  | returned cause | undefined =>
    simp only [Limiter.run, state]
    exact draining

theorem Draining.enqueue (bufs : List PacedMbuf) (set : s.ctl.stop = 0) : l.Draining (l.step s (.enqueue bufs)) := by
  unfold Limiter.step
  dsimp only
  split
  · exact draining
  · rename_i k ring put
    obtain ⟨ledger, size, -, idle⟩ := draining
    refine ⟨fun live => ?_, size, fun unset => absurd set unset, idle⟩
    obtain ⟨stored, counted, whole⟩ := ledger live
    refine ⟨?_, counted, whole⟩
    simp only [stored, ringEnqueue_items put, append_assoc]

/-- The end of libmoon and the clock are no matter of the packets. -/
theorem Draining.outside (isRunning : Bool) (clock : UInt64)
    (down : isRunning → s.isRunning) : l.Draining { s with isRunning, clock } where
  ledger live := by
    obtain ⟨stored, counted, whole⟩ := draining.ledger live
    exact ⟨stored, counted, whole⟩
  size := draining.size
  stopped set live := by
    obtain ⟨whole, emptied⟩ := draining.stopped set live
    exact ⟨whole, emptied⟩
  idle returned running := draining.idle returned (down running)
end

theorem Draining.started (start : l.Started s) : l.Draining s := by
  obtain ⟨ring, ctl, pc, -, enqueued, sent⟩ := start
  constructor
  · intro _
    constructor
    · simp [ring, pc, enqueued, sent]
    · simp [ctl, pc, sent]
    · simp [pc, sent]
  · simp [pc]
  · simp [ctl]
  · simp [pc]

theorem Draining.step {a : Act D} (draining : l.Draining s) (able : Able s a) (stops : l.StopsDrained s a) :
    l.Draining (l.step s a) := by
  cases a with
  | run accepted draw => exact draining.run accepted draw
  | enqueue bufs => exact draining.enqueue bufs able
  | stop =>
    obtain ⟨ledger, size, -, idle⟩ := draining
    refine ⟨fun live => ?_, size, fun _ _ => ⟨stops.1, stops.2⟩, fun _ _ => (by decide : (1 : UInt64) ≠ 0)⟩
    obtain ⟨stored, counted, whole⟩ := ledger live
    exact ⟨stored, counted, whole⟩
  | quit => exact draining.outside false s.clock (by simp)
  | tick now => exact draining.outside s.isRunning now id

theorem Draining.drained (draining : l.Draining s) (returned : s.pc = .returned .idle)
    (libmoon : s.isRunning = true) : s.Drained := by
  have live : s.pc.live := by rw [returned]; rfl
  obtain ⟨stored, counted, -⟩ := draining.ledger live
  have items := (draining.stopped (draining.idle returned libmoon) live).emptied (by rw [returned]; rfl)
  simp only [returned, items, Pc.held, Pc.uncounted, append_nil, length_nil, Nat.add_zero] at stored counted
  refine ⟨stored.symm, ?_⟩
  rw [stored, ← counted]
  exact (UInt64.add_zero _).symm

end

instance (s : State) : Decidable s.Drained := inferInstanceAs (Decidable (_ ∧ _))

/-- Every run in which `stop` is set only while the loop is able to send the rest
ends, when it ends because of `stop`, with the ring drained. -/
theorem software_limiter_drains_ring [Double D] (mode : LimiterMode) (tscHz : UInt64) (delay speed : UInt32) {s : State}
    (reach : ((mgRateLimiterMain mode tscHz delay speed : Limiter D).machine.guarded
      (mgRateLimiterMain mode tscHz delay speed).StopsDrained).Reach s)
    (returned : s.pc = .returned .idle) (libmoon : s.isRunning = true) : s.Drained := by
  have draining : (mgRateLimiterMain mode tscHz delay speed : Limiter D).Draining s :=
    reach.invariant (fun _ start => .started start) (fun _ _ kept able => kept.step able.1 able.2)
  exact draining.drained returned libmoon

/-- A limiter of 1 GHz at its start, with room for 127 packets. -/
def State.fresh : State where
  ring := { slots := 127, items := [], bounded := by decide, sized := by decide }
  ctl := ⟨0, 0⟩
  isRunning := true
  clock := 0
  pc := .head
  nextSend := 0
  enqueued := []
  sent := []

theorem State.fresh_started (mode : LimiterMode) :
    (mgRateLimiterMain mode 1000000000 10 10000 : Limiter ℚ).Started State.fresh := by
  cases mode <;> exact ⟨rfl, rfl, rfl, rfl, rfl, rfl⟩

/-- The limiter takes a number of steps with a device that accepts each packet. -/
def steps (n : Nat) : List (Act ℚ) := List.replicate n (.run true 0)

def smallPkts (n : Nat) : List PacedMbuf :=
  (List.range n).map fun addr => { addr, pktLen := 60, udata64 := 84 }

/-- A run without a loss, in which the mode's loop returns with one batch sent. -/
def DrainsBatch (mode : LimiterMode) : Prop :=
  ∃ s, ((mgRateLimiterMain mode 1000000000 10 10000 : Limiter ℚ).machine.guarded
      (mgRateLimiterMain mode 1000000000 10 10000).StopsDrained).Reach s ∧
    s.pc = .returned .idle ∧ s.isRunning = true ∧ s.sent = smallPkts 64 ∧ s.Drained

theorem software_limiter_drains_ring_one_batch : DrainsBatch .cbr ∧ DrainsBatch .poisson ∧ DrainsBatch .custom := by
  have every : ∀ mode, DrainsBatch mode := by
    intro mode
    have run : ((mgRateLimiterMain mode 1000000000 10 10000 : Limiter ℚ).machine.guarded
        (mgRateLimiterMain mode 1000000000 10 10000).StopsDrained).leadsTo
        (fun s => s.pc = .returned .idle ∧ s.isRunning = true ∧ s.sent = smallPkts 64) State.fresh
        ([.tick 10000, .enqueue (smallPkts 64)] ++ steps 3 ++ [.stop] ++ steps 205) = true := by
      cases mode <;> decide +kernel
    obtain ⟨s, reach, test⟩ := Machine.reach_of_leadsTo run (.start (State.fresh_started mode))
    obtain ⟨returned, libmoon, sent⟩ := of_decide_eq_true test
    exact ⟨s, reach, returned, libmoon, sent, software_limiter_drains_ring mode _ _ _ reach returned libmoon⟩
  exact ⟨every .cbr, every .poisson, every .custom⟩

/-- A run in which the device takes every packet it is given, and the mode's loop
returns because of `stop` with a packet in the ring. -/
def LeavesPacket (mode : LimiterMode) : Prop :=
  ∃ s, (mgRateLimiterMain mode 1000000000 10 10000 : Limiter ℚ).machine.Reach s ∧
    s.pc = .returned .idle ∧ s.isRunning = true ∧ s.enqueued = smallPkts 1 ∧ s.sent = []

/-- Two loops send whole batches only. The other one may look into the ring for
the last time before the packet and `stop` arrive. -/
theorem software_limiter_leaves_packet : LeavesPacket .cbr ∧ LeavesPacket .poisson ∧ LeavesPacket .custom := by
  have of_run : ∀ mode acts, (mgRateLimiterMain mode 1000000000 10 10000 : Limiter ℚ).machine.leadsTo
      (fun s => s.pc = .returned .idle ∧ s.isRunning = true ∧ s.enqueued = smallPkts 1 ∧ s.sent = []) State.fresh
      acts = true → LeavesPacket mode := by
    intro mode acts run
    obtain ⟨s, reach, test⟩ := Machine.reach_of_leadsTo run (.start (State.fresh_started mode))
    exact ⟨s, reach, of_decide_eq_true test⟩
  refine ⟨of_run .cbr ([.enqueue (smallPkts 1), .stop] ++ steps 4) ?_,
    of_run .poisson ([.enqueue (smallPkts 1), .stop] ++ steps 4) ?_,
    of_run .custom (steps 9 ++ [.enqueue (smallPkts 1), .stop] ++ steps 1) ?_⟩
  all_goals decide +kernel

end Limiter

end MoonGen
