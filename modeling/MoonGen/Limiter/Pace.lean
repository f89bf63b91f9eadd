import MoonGen.Lib.Schedule
import MoonGen.Limiter.Drain

namespace MoonGen

open List

theorem toInt64_toInt {x : UInt64} (small : x.toNat < 2 ^ 63) : x.toInt64.toInt = x.toNat := by
  change x.toBitVec.toInt = x.toNat
  rw [BitVec.toInt_eq_toNat_of_lt]
  · rfl
  · change 2 * x.toNat < 2 ^ 64
    omega

/-- With a clock that is not too large the rule is defined and never turns
`next_send` back. -/
theorem restartRateControl_forward {tscHz cur nextSend : UInt64} (hz : tscHz.toNat < 2 ^ 63)
    (clock : cur.toNat < 2 ^ 62) (next : nextSend.toNat < 2 ^ 63) :
    ∃ after, restartRateControl tscHz cur nextSend = some after ∧ nextSend ≤ after ∧ after.toNat < 2 ^ 63 := by
  have cur' : cur.toInt64.toInt = cur.toNat := toInt64_toInt (by omega)
  have hz' : tscHz.toInt64.toInt.tdiv 100 = ((tscHz.toNat / 100 : Nat) : Int) := by
    rw [toInt64_toInt hz]
    rfl
  unfold restartRateControl
  simp only [cur', hz', toInt64_toInt next]
  rw [if_pos (by omega)]
  split
  · refine ⟨cur, rfl, ?_, by omega⟩
    rw [UInt64.le_iff_toNat_le]
    omega
  · exact ⟨nextSend, rfl, UInt64.le_refl _, next⟩

namespace Limiter

variable {D : Type}

/-- What shows of the pacing: the time a packet waited for, and the time it left. -/
inductive Event where
  | due (nextSend : UInt64)
  | left (clock : UInt64)
  deriving DecidableEq

def event (s : State) : Act D → Option Event
  | .run accepted _ =>
    match s.pc with
    | .spin _ _ _ => if s.clock < s.nextSend then none else some (.due s.nextSend)
    | .transmit _ _ _ => if accepted then some (.left s.clock) else none
    | _ => none
  | _ => none

def dues (log : List Event) : List Nat :=
  log.filterMap fun | .due nextSend => some nextSend.toNat | .left _ => none

def departures (log : List Event) : List Nat :=
  log.filterMap fun | .due _ => none | .left clock => some clock.toNat

/-- The clock never goes back and stays below `2 ^ 62`. -/
def ClockForward (s : State) : Act D → Prop
  | .tick now => s.clock ≤ now ∧ now.toNat < 2 ^ 62
  | _ => True

instance (s : State) : (a : Act D) → Decidable (ClockForward s a)
  | .tick _ => inferInstanceAs (Decidable (_ ∧ _))
  | .run _ _ | .enqueue _ | .stop | .quit => inferInstanceAs (Decidable True)

def timed (l : Limiter D) : Machine State (Act D) where
  start s := l.Started s ∧ s.clock.toNat < 2 ^ 62
  enabled s a := Able s a ∧ ClockForward s a
  next := l.step

instance (l : Limiter D) (s : State) (a : Act D) : Decidable (l.timed.enabled s a) :=
  inferInstanceAs (Decidable (_ ∧ _))

/-- `next_send` after the waits of `k` packets of a batch. Only one wait away from
the clock it can be large, for the second wait bounds the gap by the clock. -/
structure Paced (gap next k : Nat) : Prop where
  grown : 0 < k → gap ≤ next
  small : k ≠ 1 → next < 2 ^ 63

/-- What is known of `next_send` at each point of the loop. -/
def Placed (gap next : Nat) : Pc → Prop
  | .head | .idle => next < 2 ^ 63
  | .dequeue size => size = limiterBatchSize ∧ next < 2 ^ 63
  | .batch bufs => (bufs = [] ∨ bufs.length = limiterBatchSize) ∧ next < 2 ^ 63
  | .packet _ rest | .transmit _ _ rest | .refused _ _ rest =>
    ∃ k, k + rest.length = limiterBatchSize ∧ Paced gap next k
  | .spin _ _ rest => ∃ k, k + 1 + rest.length = limiterBatchSize ∧ Paced gap next k
  | .count _ => next < 2 ^ 63
  | .returned _ | .undefined => True

/-- A packet has passed its wait and is not accepted yet. -/
def Pc.passed : Pc → Bool
  | .transmit _ _ _ | .refused _ _ _ | .returned .refused => true
  | _ => false

/-- A step from here shows nothing of the pacing. -/
def Pc.silent : Pc → Bool
  | .spin _ _ _ | .transmit _ _ _ => false
  | _ => true

structure OnTime (gap : Nat) (s : State) (log : List Event) : Prop where
  clock : s.clock.toNat < 2 ^ 62
  placed : Placed gap s.nextSend.toNat s.pc
  schedule : Schedule gap (dues log) (departures log)
  next : ∀ d ∈ (dues log).getLast?, d + gap ≤ s.nextSend.toNat
  last : ∀ d ∈ (dues log).getLast?, d ≤ s.clock.toNat
  waiting : (departures log).length + s.pc.passed.toNat = (dues log).length

section
variable {tscHz idCycles : UInt64} {s after : State} {log : List Event}

variable {gap : Nat}

/-- A step that shows nothing: the clock stands, and `next_send` does not go back. -/
theorem OnTime.move (on : OnTime gap s log) (clock : after.clock = s.clock)
    (forward : s.nextSend ≤ after.nextSend) (placed : Placed gap after.nextSend.toNat after.pc)
    (passed : after.pc.passed = s.pc.passed) : OnTime gap after log where
  clock := clock ▸ on.clock
  placed := placed
  schedule := on.schedule
  next d last := (on.next d last).trans (UInt64.le_iff_toNat_le.mp forward)
  last := clock ▸ on.last
  waiting := passed ▸ on.waiting

theorem toNat_add_idCycles {next clock : UInt64} (small : idCycles.toNat ≤ 2 ^ 64 - 2 ^ 62) (reached : next ≤ clock)
    (bound : clock.toNat < 2 ^ 62) : (next + idCycles).toNat = next.toNat + idCycles.toNat := by
  rw [UInt64.le_iff_toNat_le] at reached
  rw [UInt64.toNat_add, Nat.mod_eq_of_lt]
  omega

theorem Paced.wait {next k clock : Nat} (paced : Paced gap next k) (reached : next ≤ clock)
    (bound : clock < 2 ^ 62) : Paced gap (next + gap) (k + 1) where
  grown _ := Nat.le_add_left _ _
  small more := by
    have grown := paced.grown (by omega)
    omega

variable {rest : List PacedMbuf}

/-- The end of a wait makes an entry of the schedule. -/
theorem OnTime.wait {n : Nat} {buf : PacedMbuf} (on : OnTime idCycles.toNat s log)
    (small : idCycles.toNat ≤ 2 ^ 64 - 2 ^ 62) (pc : s.pc = .spin n buf rest) (reached : ¬s.clock < s.nextSend) :
    OnTime idCycles.toNat { s with nextSend := s.nextSend + idCycles, pc := .transmit n buf rest }
      (log ++ [.due s.nextSend]) := by
  have passed : s.nextSend ≤ s.clock := UInt64.not_lt.mp reached
  have sum := toNat_add_idCycles small passed on.clock
  have placed := on.placed
  have waiting := on.waiting
  rw [UInt64.le_iff_toNat_le] at passed
  rw [pc] at placed waiting
  obtain ⟨k, length, paced⟩ := placed
  have due : dues (log ++ [.due s.nextSend]) = dues log ++ [s.nextSend.toNat] := by simp [dues]
  have left : departures (log ++ [.due s.nextSend]) = departures log := by simp [departures]
  constructor
  · exact on.clock
  · exact ⟨k + 1, length, sum ▸ paced.wait passed on.clock⟩
  · rw [due, left]
    exact on.schedule.plan on.next
  · simp [due, sum]
  · simpa [due] using passed
  · rw [due, left, length_append, ← waiting]
    rfl

theorem OnTime.leave {n : Nat} {buf : PacedMbuf} (on : OnTime gap s log) (pc : s.pc = .transmit n buf rest) :
    OnTime gap { s with sent := s.sent ++ [buf], pc := .packet n rest } (log ++ [.left s.clock]) := by
  have placed := on.placed
  have waiting := on.waiting
  rw [pc] at placed waiting
  have due : dues (log ++ [.left s.clock]) = dues log := by simp [dues]
  have left : departures (log ++ [.left s.clock]) = departures log ++ [s.clock.toNat] := by simp [departures]
  constructor
  · exact on.clock
  · exact placed
  · rw [due, left]
    exact on.schedule.leave waiting on.last
  · rw [due]
    exact on.next
  · rw [due]
    exact on.last
  · rw [due, left, length_append, ← waiting]
    rfl

theorem append_event_of_silent (silent : s.pc.silent) (accepted : Bool) (draw : D) :
    log ++ (event s (.run accepted draw)).toList = log := by
  have silence : event s (.run accepted draw) = none := by
    unfold event
    dsimp only
    split
    · rename_i pc
      rw [pc] at silent
      cases silent
    · rename_i pc
      rw [pc] at silent
      cases silent
    · rfl
  rw [silence, Option.toList_none, append_nil]

theorem OnTime.dequeue {size : Nat} (on : OnTime gap s log) (pc : s.pc = .dequeue size) (accepted : Bool)
    (draw : D) : OnTime gap ((cbrLimiter tscHz idCycles).run accepted draw s) log := by
  have placed := on.placed
  rw [pc] at placed
  obtain ⟨rfl, below⟩ := placed
  simp only [Limiter.run, pc]
  split
  · exact on.move rfl (UInt64.le_refl _) ⟨.inl rfl, below⟩ (by rw [pc]; rfl)
  · rename_i taken
    exact on.move rfl (UInt64.le_refl _) ⟨.inr (ringDequeue_length taken), below⟩ (by rw [pc]; rfl)

theorem OnTime.batch {bufs : List PacedMbuf} (hz : tscHz.toNat < 2 ^ 63) (on : OnTime gap s log)
    (pc : s.pc = .batch bufs) (accepted : Bool) (draw : D) :
    OnTime gap ((cbrLimiter tscHz idCycles).run accepted draw s) log := by
  have placed := on.placed
  rw [pc] at placed
  obtain ⟨full, below⟩ := placed
  obtain ⟨next, restart, forward, bound⟩ := restartRateControl_forward hz on.clock below
  simp only [Limiter.run, pc, cbrLimiter, restart]
  refine on.move rfl forward ?_ ?_
  · split
    · exact bound
    · rename_i nonempty
      exact ⟨0, by simpa using full.resolve_left nonempty, by simp, fun _ => bound⟩
  · rw [pc]
    split <;> rfl

/-- A batch is longer than one packet, so that `next_send` is small at its end. -/
theorem OnTime.packet {n : Nat} (on : OnTime gap s log) (pc : s.pc = .packet n rest)
    (accepted : Bool) (draw : D) : OnTime gap ((cbrLimiter tscHz idCycles).run accepted draw s) log := by
  have placed := on.placed
  rw [pc] at placed
  obtain ⟨k, length, paced⟩ := placed
  cases rest with
  | nil =>
    have many : k ≠ 1 := by
      rintro rfl
      cases length
    simp only [Limiter.run, pc]
    exact on.move rfl (UInt64.le_refl _) (paced.small many) (by rw [pc]; rfl)
  | cons buf rest =>
    rw [length_cons] at length
    simp only [Limiter.run, pc, cbrLimiter]
    exact on.move rfl (UInt64.le_refl _) ⟨k, by omega, paced⟩ (by rw [pc]; rfl)

/-- A test of a flag leads on with `next_send` as it is, or out of the loop. -/
theorem OnTime.test {up : Bool} {pc out : Pc} (on : OnTime gap s log)
    (placed : Placed gap s.nextSend.toNat pc) (left : Placed gap s.nextSend.toNat out)
    (passed : pc.passed = s.pc.passed) (passed' : out.passed = s.pc.passed) :
    OnTime gap { s with pc := if up then pc else out } log := by
  cases up with
  | true => exact on.move rfl (UInt64.le_refl _) placed passed
  | false => exact on.move rfl (UInt64.le_refl _) left passed'

theorem OnTime.run_silent (hz : tscHz.toNat < 2 ^ 63) (on : OnTime idCycles.toNat s log) (silent : s.pc.silent)
    (accepted : Bool) (draw : D) : OnTime idCycles.toNat ((cbrLimiter tscHz idCycles).run accepted draw s) log := by
  have placed := on.placed
  cases state : s.pc with
  | spin n buf rest | transmit n buf rest =>
    rw [state] at silent
    cases silent
  | dequeue size => exact on.dequeue state accepted draw
  | batch bufs => exact on.batch hz state accepted draw
  | packet n rest => exact on.packet state accepted draw
  | head =>
    simp only [Limiter.run, state]
    rw [state] at placed
    exact on.test ⟨rfl, placed⟩ trivial (by rw [state]; rfl) (by rw [state]; rfl)
  | refused n buf rest | idle =>
    simp only [Limiter.run, state]
    rw [state] at placed
    exact on.test placed trivial (by rw [state]; rfl) (by rw [state]; rfl)
  | count n =>
    simp only [Limiter.run, state]
    rw [state] at placed
    exact on.move rfl (UInt64.le_refl _) placed (by rw [state]; rfl)
  | returned cause | undefined =>
    simp only [Limiter.run, state]
    exact on

theorem OnTime.run (hz : tscHz.toNat < 2 ^ 63) (small : idCycles.toNat ≤ 2 ^ 64 - 2 ^ 62)
    (on : OnTime idCycles.toNat s log) (accepted : Bool) (draw : D) :
    OnTime idCycles.toNat ((cbrLimiter tscHz idCycles).run accepted draw s)
      (log ++ (event s (Act.run accepted draw)).toList) := by
  cases state : s.pc with
  | spin n buf rest =>
    simp only [Limiter.run, event, state, cbrLimiter]
    split
    · rw [Option.toList_none, append_nil]
      exact on
    · rename_i reached
      exact on.wait small state reached
  | transmit n buf rest =>
    have placed := on.placed
    simp only [Limiter.run, event, state]
    split
    · exact on.leave state
    · rw [Option.toList_none, append_nil]
      rw [state] at placed
      exact on.move rfl (UInt64.le_refl _) placed (by rw [state]; rfl)
  | _ =>
    have silent : s.pc.silent := by rw [state]; rfl
    rw [append_event_of_silent silent]
    exact on.run_silent hz silent accepted draw

theorem OnTime.step {a : Act D} (hz : tscHz.toNat < 2 ^ 63) (small : idCycles.toNat ≤ 2 ^ 64 - 2 ^ 62)
    (on : OnTime idCycles.toNat s log) (forward : ClockForward s a) :
    OnTime idCycles.toNat ((cbrLimiter tscHz idCycles).step s a) (log ++ (event s a).toList) := by
  cases a with
  | run accepted draw => exact on.run hz small accepted draw
  | enqueue bufs =>
    simp only [event, Option.toList_none, append_nil]
    unfold Limiter.step
    dsimp only
    split
    · exact on
    · exact on.move rfl (UInt64.le_refl _) on.placed rfl
  | stop | quit =>
    simp only [event, Option.toList_none, append_nil]
    exact on.move rfl (UInt64.le_refl _) on.placed rfl
  | tick now =>
    simp only [event, Option.toList_none, append_nil]
    obtain ⟨later, below⟩ := forward
    refine ⟨below, on.placed, on.schedule, on.next, fun d last => ?_, on.waiting⟩
    exact (on.last d last).trans (UInt64.le_iff_toNat_le.mp later)

theorem OnTime.started (start : (cbrLimiter tscHz idCycles : Limiter D).Started s)
    (clock : s.clock.toNat < 2 ^ 62) : OnTime gap s [] := by
  have next : s.nextSend = 0 := start.nextSend
  refine ⟨clock, ?_, .empty, by simp [dues], by simp [dues], ?_⟩
  · rw [start.pc, next]
    exact Nat.two_pow_pos 63
  · rw [start.pc]
    rfl

end

/-- The times that `main_loop_cbr` waits for are a schedule with the wanted gap,
no packet leaves before its time, and the restart rule only moves it forward. -/
theorem cbr_limiter_keeps_schedule {tscHz idCycles : UInt64} (hz : tscHz.toNat < 2 ^ 63)
    (small : idCycles.toNat ≤ 2 ^ 64 - 2 ^ 62) {s : State} {log : List Event}
    (reach : ((cbrLimiter tscHz idCycles : Limiter D).timed.logged event).Reach (s, log)) :
    Schedule idCycles.toNat (dues log) (departures log) ∧
    (∀ k t : Nat, (departures log)[k]? = some t →
      ∃ first, (dues log).head? = some first ∧ first + k * idCycles.toNat ≤ t) ∧
    ∀ bufs, s.pc = .batch bufs →
      ∃ next, restartRateControl tscHz s.clock s.nextSend = some next ∧ s.nextSend ≤ next := by
  have on : OnTime idCycles.toNat s log := by
    refine reach.invariant (I := fun p => OnTime idCycles.toNat p.1 p.2) ?_ ?_
    · rintro ⟨s, log⟩ ⟨⟨start, clock⟩, rfl⟩
      exact .started start clock
    · rintro ⟨s, log⟩ a on ⟨-, forward⟩
      exact on.step hz small forward
  refine ⟨on.schedule, fun k t gone => on.schedule.from_first gone, ?_⟩
  intro bufs pc
  have placed := on.placed
  rw [pc] at placed
  obtain ⟨next, restart, forward, -⟩ := restartRateControl_forward hz on.clock placed.2
  exact ⟨next, restart, forward⟩

/-- A batch in the ring 20 ms after the start, up to the second departure. -/
def twoPackets : List (Act ℚ) :=
  [.enqueue (smallPkts 64), .tick 20000000] ++ steps 6 ++ [.tick 20000100] ++ steps 3

theorem cbr_limiter_keeps_schedule_two : ∃ s log,
    ((cbrLimiter 1000000000 84 : Limiter ℚ).timed.logged event).Reach (s, log) ∧
    dues log = [20000000, 20000084] ∧ departures log = [20000000, 20000100] ∧
    Schedule 84 (dues log) (departures log) := by
  have run : ((cbrLimiter 1000000000 84 : Limiter ℚ).timed.logged event).leadsTo
      (fun p => dues p.2 = [20000000, 20000084] ∧ departures p.2 = [20000000, 20000100]) (State.fresh, [])
      twoPackets = true := by
    decide +kernel
  obtain ⟨⟨s, log⟩, reach, test⟩ :=
    Machine.reach_of_leadsTo run (.start ⟨⟨⟨rfl, rfl, rfl, rfl, rfl, rfl⟩, Nat.two_pow_pos 62⟩, rfl⟩)
  obtain ⟨due, left⟩ := of_decide_eq_true test
  exact ⟨s, log, reach, due, left, (cbr_limiter_keeps_schedule (by decide) (by decide) reach).1⟩

/-- A gap close to `2 ^ 64` cycles wraps `next_send`: two packets leave at once. -/
theorem cbr_limiter_misses_schedule : ∃ s log,
    ((cbrLimiter 1000000000 (0 - 2048) : Limiter ℚ).timed.logged event).Reach (s, log) ∧
    ∀ due, ¬Schedule (0 - 2048 : UInt64).toNat due (departures log) := by
  have run : ((cbrLimiter 1000000000 (0 - 2048) : Limiter ℚ).timed.logged event).leadsTo
      (fun p => departures p.2 = [20000000, 20000100]) (State.fresh, []) twoPackets = true := by
    decide +kernel
  obtain ⟨⟨s, log⟩, reach, test⟩ :=
    Machine.reach_of_leadsTo run (.start ⟨⟨⟨rfl, rfl, rfl, rfl, rfl, rfl⟩, Nat.two_pow_pos 62⟩, rfl⟩)
  have left : departures log = [20000000, 20000100] := of_decide_eq_true test
  refine ⟨s, log, reach, fun due schedule => ?_⟩
  obtain ⟨first, -, bound⟩ := schedule.from_first (k := 1) (t := 20000100) (by rw [left]; rfl)
  have gap : (0 - 2048 : UInt64).toNat = 18446744073709549568 := rfl
  omega

/-- The gap that `main_loop_cbr` computes is in this bound for every counter below a terahertz. -/
theorem mainLoopCbr_eq {tscHz : UInt64} (positive : 0 < tscHz.toNat) (hz : tscHz.toNat < 2 ^ 40) (target : UInt32) :
    ∃ idCycles : UInt64, (mainLoopCbr tscHz target : Limiter Lua.Number) = cbrLimiter tscHz idCycles ∧
      idCycles.toNat ≤ 2 ^ 64 - 2 ^ 62 := by
  refine ⟨_, rfl, ?_⟩
  have exact {x : UInt64} (short : x.toNat < 2 ^ 53) : Double.ofUInt64 x = Lua.Number.ofNat x.toNat :=
    Lua.Number.ofRat_natCast short
  have short : target.toUInt64.toNat < 2 ^ 32 := target.toNat_toUInt64 ▸ target.toNat_lt
  have wanted : (target.toUInt64.toNat : ℚ) ≤ 2 ^ 32 := by exact_mod_cast short.le
  have least : (1 : ℚ) ≤ tscHz.toNat := Nat.one_le_cast.mpr positive
  have most : (tscHz.toNat : ℚ) ≤ 2 ^ 40 := by exact_mod_cast hz.le
  rw [exact (by omega), exact (by decide), exact (by omega)]
  generalize target.toUInt64.toNat = n at *
  generalize tscHz.toNat = c at *
  change (Double.toUInt64 (Lua.Number.ofNat n / (Lua.Number.ofNat 1000000000 / Lua.Number.ofNat c))).toNat ≤ _
  have cycle : (1 / 10 ^ 4 : ℚ) ≤ (1000000000 : Nat) / c ∧ ((1000000000 : Nat) / c : ℚ) ≤ 10 ^ 9 := by
    rw [le_div_iff₀ (by linarith), div_le_iff₀ (by linarith)]
    constructor <;> norm_num <;> linarith
  have period := (Lua.Number.near_ofNat 1000000000).div (Lua.Number.near_ofNat c) (Nat.cast_nonneg _) (by linarith)
    (Lua.Number.normal_of_le (by linarith) (by linarith)) (by decide) (by decide)
  have gap : (n / ((1000000000 : Nat) / c) : ℚ) ≤ 2 ^ 50 := by
    rw [div_le_iff₀ (by linarith)]
    linarith
  have normal : Lua.Number.Normal (n / ((1000000000 : Nat) / c) : ℚ) := by
    rcases Nat.eq_zero_or_pos n with rfl | more
    · exact .inl (by simp)
    · have one : (1 : ℚ) ≤ n := Nat.one_le_cast.mpr more
      refine Lua.Number.normal_of_le ?_ (by linarith)
      rw [le_div_iff₀ (by linarith)]
      linarith
  obtain ⟨r, eq, close⟩ :=
    (Lua.Number.near_ofNat n).div period (Nat.cast_nonneg _) (by linarith) normal (by decide) (by decide)
  rw [eq]
  have bound : 0 ≤ r ∧ r ≤ 2 ^ 51 := by
    have nonneg := normal.nonneg
    have near := abs_le.mp close
    norm_num at near gap
    constructor <;> linarith
  have floor : ⌊r⌋ ≤ 2 ^ 51 := by exact_mod_cast (Int.floor_le r).trans bound.2
  have nonneg : 0 ≤ ⌊r⌋ := Int.floor_nonneg.mpr bound.1
  change (UInt64.ofInt (Lua.Number.finite r).truncate).toNat ≤ _
  rw [Lua.Number.truncate, if_pos bound.1]
  change (UInt64.ofNat (⌊r⌋ % 2 ^ 64).toNat).toNat ≤ _
  rw [UInt64.toNat_ofNat']
  omega

end Limiter

end MoonGen
