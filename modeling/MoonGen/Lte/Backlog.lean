import Mathlib.Data.UInt
import MoonGen.Lib.Double
import MoonGen.Lte.Forward

namespace MoonGen

open List

/-- The arguments of `forward` in the catch-up variant that decide how a frame is sent. -/
structure CatchupLink (D : Type) where
  linkspeed : D
  rate : D
  latency : D
  xlatency : D
  catchuprate : D
  tscHzMs : D

/-- A frame from the ring, with what was drawn for it: how often it was lost, and
its extra delay. `timeStuckInLoop` is the time it has spent in a sleeping block. -/
structure Arrival (D : Type) where
  pktLen : UInt32
  udata64 : UInt64
  closses : Nat
  extraDelay : D
  timeStuckInLoop : UInt64

/-- A frame in the hands of `sendWithDelayLoss`. -/
structure Departure (D : Type) where
  sendTime : UInt64
  catchup : Bool
  delay : D

/-- The variables that a frame leaves to those behind it. -/
structure Backlog where
  catchupMode : Bool := false
  clSendTime : UInt64 := 0

variable {D : Type} [Double D]

open Double

/-- A variable that starts at zero and is counted up. -/
def countUp : Nat → D
  | 0 => ofUInt64 0
  | n + 1 => countUp n + ofUInt64 1

namespace CatchupLink

variable (link : CatchupLink D) (buf : Arrival D)

/-- What is passed to `setDelay`. -/
def delay (catchup : Bool) : D :=
  let pktSize := ofUInt64 (buf.pktLen.toUInt64 + 24)
  pktSize * (link.linkspeed / (if catchup then link.catchuprate else link.rate) - ofUInt64 1)

variable [LT D] [DecidableLT D]

/-- `send_time`, a sum of 64 bits. -/
def sendTime : UInt64 :=
  let extraDelay := if ofUInt64 0 < link.xlatency then buf.extraDelay else ofUInt64 0
  let resend := countUp buf.closses * ofUInt64 (.ofNat concealedResendTime)
  buf.udata64 + (toUInt64 ((resend + link.latency + extraDelay) * link.tscHzMs) + buf.timeStuckInLoop)

end CatchupLink

namespace Backlog

variable [LT D] [DecidableLT D]

/-- The body of the loop over the frames. -/
def forward (link : CatchupLink D) (s : Backlog) (buf : Arrival D) : Departure D × Backlog :=
  let entered := s.catchupMode || (decide (0 < buf.closses) && decide (ofUInt64 0 < link.catchuprate))
  let sendTime := link.sendTime buf
  let after : Backlog :=
    if 0 < buf.closses then ⟨entered, if sendTime > s.clSendTime then sendTime else s.clSendTime⟩
    else if sendTime > s.clSendTime then ⟨false, s.clSendTime⟩
    else ⟨entered, s.clSendTime⟩
  (⟨sendTime, after.catchupMode, link.delay buf after.catchupMode⟩, after)

def forwards (link : CatchupLink D) : Backlog → List (Arrival D) → List (Departure D)
  | _, [] => []
  | s, buf :: bufs => (s.forward link buf).1 :: forwards link (s.forward link buf).2 bufs

variable {link : CatchupLink D} {s : Backlog} {buf : Arrival D}

theorem forward_lossy (catches : ofUInt64 0 < link.catchuprate) (lossy : 0 < buf.closses) :
    (s.forward link buf).2 =
      ⟨true, if s.clSendTime < link.sendTime buf then link.sendTime buf else s.clSendTime⟩ := by
  simp only [forward, lossy, catches, decide_true, Bool.and_self, Bool.or_true, if_true, gt_iff_lt]

theorem forward_later (whole : buf.closses = 0) (later : s.clSendTime < link.sendTime buf) :
    (s.forward link buf).2 = ⟨false, s.clSendTime⟩ := by
  simp only [forward, whole, Nat.lt_irrefl, if_false, gt_iff_lt, later, if_true]

theorem forward_backed (whole : buf.closses = 0) (backed : ¬s.clSendTime < link.sendTime buf) :
    (s.forward link buf).2 = s := by
  simp only [forward, whole, Nat.lt_irrefl, if_false, gt_iff_lt, backed, decide_false, Bool.false_and, Bool.or_false]

/-- What the two variables tell about the frames before, of which the last comes first. -/
structure Tracks (link : CatchupLink D) (s : Backlog) (before : List (Arrival D)) : Prop where
  largest : ∀ g ∈ before, 0 < g.closses → link.sendTime g ≤ s.clSendTime
  attained : s = {} ∧ (∀ g ∈ before, g.closses = 0) ∨ ∃ g ∈ before, 0 < g.closses ∧ link.sendTime g = s.clSendTime
  cleared : s.catchupMode = false →
    (∀ g ∈ before, g.closses = 0) ∨ ∃ g ∈ before, g.closses = 0 ∧ s.clSendTime < link.sendTime g

variable {before : List (Arrival D)}

theorem Tracks.start : Tracks link {} [] where
  largest g member := by cases member
  attained := .inl ⟨rfl, fun g member => by cases member⟩
  cleared _ := .inl fun g member => by cases member

theorem Tracks.largest_cons (tracks : Tracks link s before) {time : UInt64} (above : s.clSendTime ≤ time)
    (self : 0 < buf.closses → link.sendTime buf ≤ time) :
    ∀ g ∈ buf :: before, 0 < g.closses → link.sendTime g ≤ time :=
  forall_mem_cons.mpr ⟨self, fun g member lossy => UInt64.le_trans (tracks.largest g member lossy) above⟩

theorem Tracks.forward_whole (tracks : Tracks link s before) (whole : buf.closses = 0) :
    Tracks link (s.forward link buf).2 (buf :: before) := by
  have largest : ∀ g ∈ buf :: before, 0 < g.closses → link.sendTime g ≤ s.clSendTime :=
    tracks.largest_cons (UInt64.le_refl _) fun lossy => absurd whole (by omega)
  have lossless (all : ∀ g ∈ before, g.closses = 0) : ∀ g ∈ buf :: before, g.closses = 0 :=
    forall_mem_cons.mpr ⟨whole, all⟩
  have more {P : Arrival D → Prop} (found : ∃ g ∈ before, P g) : ∃ g ∈ buf :: before, P g :=
    exists_mem_cons_of_exists found
  by_cases later : s.clSendTime < link.sendTime buf
  · rw [forward_later whole later]
    refine ⟨largest, ?_, fun _ => .inr ⟨buf, mem_cons_self, whole, later⟩⟩
    rcases tracks.attained with ⟨rfl, all⟩ | found
    · exact .inl ⟨rfl, lossless all⟩
    · exact .inr (more found)
  · rw [forward_backed whole later]
    exact ⟨largest, tracks.attained.imp (And.imp_right lossless) more, fun mode => (tracks.cleared mode).imp lossless more⟩

theorem Tracks.forward_lossy (catches : ofUInt64 0 < link.catchuprate) (tracks : Tracks link s before)
    (lossy : 0 < buf.closses) : Tracks link (s.forward link buf).2 (buf :: before) := by
  rw [Backlog.forward_lossy catches lossy]
  split
  · rename_i later
    exact ⟨tracks.largest_cons (UInt64.le_of_lt later) fun _ => UInt64.le_refl _,
      .inr ⟨buf, mem_cons_self, lossy, rfl⟩, fun mode => Bool.noConfusion mode⟩
  · rename_i backed
    have before := UInt64.not_lt.mp backed
    refine ⟨tracks.largest_cons (UInt64.le_refl _) fun _ => before, .inr ?_, fun mode => Bool.noConfusion mode⟩
    rcases tracks.attained with ⟨rfl, -⟩ | found
    · exact ⟨buf, mem_cons_self, lossy, UInt64.le_antisymm before (UInt64.zero_le)⟩
    · exact exists_mem_cons_of_exists found

theorem Tracks.forward (catches : ofUInt64 0 < link.catchuprate) (tracks : Tracks link s before) :
    Tracks link (s.forward link buf).2 (buf :: before) := by
  rcases Nat.eq_zero_or_pos buf.closses with whole | lossy
  · exact tracks.forward_whole whole
  · exact tracks.forward_lossy catches lossy

/-- The decision on one frame. That the frames without a loss go out in their order is
what makes the flag as good as the whole history. -/
theorem Tracks.catchup_iff (catches : ofUInt64 0 < link.catchuprate) (tracks : Tracks link s before)
    (order : ∀ g ∈ before, g.closses = 0 → buf.closses = 0 → link.sendTime g ≤ link.sendTime buf) :
    (s.forward link buf).1.catchup = true ↔
      0 < buf.closses ∨ ∃ g ∈ before, 0 < g.closses ∧ link.sendTime buf ≤ link.sendTime g := by
  change (s.forward link buf).2.catchupMode = true ↔ _
  rcases Nat.eq_zero_or_pos buf.closses with whole | lossy
  · have own : ¬0 < buf.closses := by omega
    by_cases later : s.clSendTime < link.sendTime buf
    · rw [forward_later whole later]
      refine ⟨fun mode => Bool.noConfusion mode, fun behind => ?_⟩
      obtain ⟨g, member, lossy, above⟩ := behind.resolve_left own
      have below := UInt64.lt_of_lt_of_le later (UInt64.le_trans above (tracks.largest g member lossy))
      exact absurd below (UInt64.lt_irrefl _)
    · have backed := UInt64.not_lt.mp later
      rw [forward_backed whole later]
      constructor
      · intro mode
        rcases tracks.attained with ⟨rfl, -⟩ | ⟨g, member, lossy, largest⟩
        · exact Bool.noConfusion mode
        · exact .inr ⟨g, member, lossy, largest ▸ backed⟩
      · intro behind
        obtain ⟨g, member, lossy, -⟩ := behind.resolve_left own
        by_contra off
        rcases tracks.cleared (Bool.eq_false_iff.mpr off) with lossless | ⟨k, earlier, cleared, above⟩
        · exact absurd (lossless g member) (by omega)
        · have below := UInt64.lt_of_lt_of_le above (UInt64.le_trans (order k earlier cleared whole) backed)
          exact UInt64.lt_irrefl _ below
  · rw [Backlog.forward_lossy catches lossy]
    exact ⟨fun _ => .inl lossy, fun _ => rfl⟩

/-- Frames without a loss are not sent before earlier ones. -/
def InOrder (link : CatchupLink D) (g buf : Arrival D) : Prop :=
  g.closses = 0 → buf.closses = 0 → link.sendTime g ≤ link.sendTime buf

theorem Tracks.forwards (catches : ofUInt64 0 < link.catchuprate) {bufs : List (Arrival D)}
    (tracks : Tracks link s before) (order : bufs.Pairwise (InOrder link))
    (behind : ∀ f ∈ bufs, ∀ g ∈ before, InOrder link g f) {i : Nat} (found : bufs[i]? = some buf) :
    ∃ out, (forwards link s bufs)[i]? = some out ∧ out.sendTime = link.sendTime buf ∧
      out.delay = link.delay buf out.catchup ∧
      (out.catchup = true ↔ 0 < buf.closses ∨
        ∃ g, (g ∈ before ∨ g ∈ bufs.take i) ∧ 0 < g.closses ∧ link.sendTime buf ≤ link.sendTime g) := by
  induction bufs generalizing s before i with
  | nil => simp at found
  | cons first bufs ih =>
    obtain ⟨later, rest⟩ := pairwise_cons.mp order
    obtain ⟨own, others⟩ := forall_mem_cons.mp behind
    cases i with
    | zero =>
      obtain rfl : first = buf := Option.some.inj found
      refine ⟨_, rfl, rfl, rfl, ?_⟩
      rw [tracks.catchup_iff catches own]
      simp only [take_zero, not_mem_nil, or_false]
    | succ i =>
      have step : Tracks link (s.forward link first).2 (first :: before) := tracks.forward catches
      have all (f : Arrival D) (member : f ∈ bufs) : ∀ g ∈ first :: before, InOrder link g f :=
        forall_mem_cons.mpr ⟨later f member, others f member⟩
      obtain ⟨out, sent, time, delay, decision⟩ := ih step rest all found
      refine ⟨out, sent, time, delay, decision.trans ?_⟩
      simp only [take_succ_cons, mem_cons, or_assoc, or_left_comm]

end Backlog

namespace CatchupLink

variable [LT D] [DecidableLT D] {link : CatchupLink D}

/-- The clock cycles that a frame without a loss is delayed. -/
def latencyCycles (link : CatchupLink D) : UInt64 :=
  toUInt64 ((countUp 0 * ofUInt64 (.ofNat concealedResendTime) + link.latency + ofUInt64 0) * link.tscHzMs)

theorem sendTime_whole {buf : Arrival D} (noExtra : ¬ofUInt64 0 < link.xlatency) (noStuck : buf.timeStuckInLoop = 0)
    (whole : buf.closses = 0) : link.sendTime buf = buf.udata64 + link.latencyCycles := by
  rw [sendTime, if_neg noExtra, noStuck, whole, UInt64.add_zero]
  rfl

theorem inOrder_of_le {g buf : Arrival D} (noExtra : ¬ofUInt64 0 < link.xlatency) (order : g.udata64 ≤ buf.udata64)
    (noStuck : g.timeStuckInLoop = 0 ∧ buf.timeStuckInLoop = 0)
    (fits : buf.closses = 0 → buf.udata64.toNat + link.latencyCycles.toNat < 2 ^ 64) : Backlog.InOrder link g buf := by
  intro earlier whole
  have order := UInt64.le_iff_toNat_le.mp order
  have fits := fits whole
  rw [sendTime_whole noExtra noStuck.1 earlier, sendTime_whole noExtra noStuck.2 whole, UInt64.le_iff_toNat_le,
    UInt64.toNat_add, UInt64.toNat_add, Nat.mod_eq_of_lt fits, Nat.mod_eq_of_lt (by omega)]
  omega

end CatchupLink

namespace Backlog

variable [LT D] [DecidableLT D]

/-- A frame is sent at the catch-up rate exactly when it was lost itself or an
earlier frame that was lost has a send time that is not before its own. -/
theorem catchup_after_loss {link : CatchupLink D} (noExtra : ¬ofUInt64 0 < link.xlatency)
    (catches : ofUInt64 0 < link.catchuprate) {bufs : List (Arrival D)}
    (order : bufs.Pairwise fun f g => f.udata64 ≤ g.udata64) (noStuck : ∀ f ∈ bufs, f.timeStuckInLoop = 0)
    (fits : ∀ f ∈ bufs, f.closses = 0 → f.udata64.toNat + link.latencyCycles.toNat < 2 ^ 64)
    {i : Nat} {buf : Arrival D} (found : bufs[i]? = some buf) :
    ∃ out, (forwards link {} bufs)[i]? = some out ∧ out.sendTime = link.sendTime buf ∧
      out.delay = link.delay buf out.catchup ∧
      (out.catchup = true ↔
        0 < buf.closses ∨ ∃ g ∈ bufs.take i, 0 < g.closses ∧ link.sendTime buf ≤ link.sendTime g) := by
  have ordered : bufs.Pairwise (InOrder link) :=
    order.imp_of_mem fun earlier later le =>
      CatchupLink.inOrder_of_le noExtra le ⟨noStuck _ earlier, noStuck _ later⟩ (fits _ later)
  have inside (f : Arrival D) (_ : f ∈ bufs) : ∀ g ∈ [], InOrder link g f := fun g member => by cases member
  obtain ⟨out, sent, time, delay, decision⟩ := Tracks.start.forwards catches ordered inside found
  refine ⟨out, sent, time, delay, decision.trans ?_⟩
  simp only [not_mem_nil, false_or]

/-- A latency of ten cycles, and eight more for each loss. -/
def tenCycles : CatchupLink ℚ :=
  { linkspeed := 10, rate := 2, latency := 10, xlatency := 0, catchuprate := 5, tscHzMs := 1 }

def arrival (udata64 : UInt64) (closses : Nat) : Arrival ℚ :=
  { pktLen := 60, udata64, closses, extraDelay := 0, timeStuckInLoop := 0 }

theorem catchup_after_loss_backed :
    ∃ out, (forwards tenCycles {} [arrival 100 1, arrival 105 0])[1]? = some out ∧ out.catchup = true := by
  have fits : ∀ f ∈ [arrival 100 1, arrival 105 0],
      f.closses = 0 → f.udata64.toNat + tenCycles.latencyCycles.toNat < 2 ^ 64 := by
    decide +kernel
  have second : [arrival 100 1, arrival 105 0][1]? = some (arrival 105 0) := rfl
  obtain ⟨out, sent, -, -, decision⟩ :=
    catchup_after_loss (by decide +kernel) (by decide +kernel) (by decide) (by decide) fits second
  exact ⟨out, sent, decision.mpr (.inr ⟨arrival 100 1, mem_singleton.mpr rfl, by decide +kernel⟩)⟩

def wrapping : List (Arrival ℚ) := [arrival (2 ^ 64 - 40) 1, arrival (2 ^ 64 - 20) 0, arrival (2 ^ 64 - 5) 0]

/-- The send time of the last frame wraps around. A frame that was lost is due later,
and yet it is sent at the lower rate. -/
theorem catchup_after_wrap :
    wrapping.Pairwise (fun f g => f.udata64 ≤ g.udata64) ∧
      tenCycles.sendTime (arrival (2 ^ 64 - 5) 0) ≤ tenCycles.sendTime (arrival (2 ^ 64 - 40) 1) ∧
      (forwards tenCycles {} wrapping)[2]?.map Departure.catchup = some false := by
  decide +kernel

end Backlog

end MoonGen
