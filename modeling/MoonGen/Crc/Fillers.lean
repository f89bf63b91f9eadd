import MoonGen.Crc.RateLimiter

namespace MoonGen

/-- The fillers that the delay loop produces for one delay, and the leftover
behind it, without the send buffer in between. -/
def fillersLoop (minPktSize : Nat) : Nat → Nat → Nat → List Filler × Nat
  | 0, _, leftoverDelay => ([], leftoverDelay)
  | fuel + 1, delay, leftoverDelay =>
    if 0 < delay then
      let d := getDelayPktBadCrc leftoverDelay delay minPktSize
      let (rest, last) := fillersLoop minPktSize fuel d.remDelay d.leftoverDelay
      (d.pkt.toList ++ rest, last)
    else ([], leftoverDelay)

def fillersFor (minPktSize leftoverDelay delay : Nat) : List Filler × Nat :=
  fillersLoop minPktSize delay delay leftoverDelay

/-- The time on the wire that fillers take, with preamble and gap, in bytes. -/
def fillerTime (fillers : List Filler) : Nat := (fillers.map fun f => f.pktLen + 20).sum

@[simp] theorem fillerTime_nil : fillerTime [] = 0 := rfl

@[simp] theorem fillerTime_cons (f : Filler) (fillers : List Filler) :
    fillerTime (f :: fillers) = f.pktLen + 20 + fillerTime fillers := by
  simp [fillerTime]

/-- The bytes of a leftover that are dropped when it meets a delay: all of
them, if more than one filler is needed. -/
def lostDelay (leftoverDelay delay : Nat) : Nat :=
  if delay = 0 ∨ leftoverDelay + delay < 1538 then 0 else leftoverDelay

section
variable {minPktSize leftoverDelay delay : Nat}

theorem getDelayPktBadCrc_short (word : leftoverDelay + delay < 2 ^ 64) (short : leftoverDelay + delay < minPktSize) :
    getDelayPktBadCrc leftoverDelay delay minPktSize =
      { pkt := none, remDelay := 0, leftoverDelay := leftoverDelay + delay } := by
  have sum : (delay + leftoverDelay) % 2 ^ 64 = leftoverDelay + delay := by omega
  simp only [getDelayPktBadCrc, sum, short, if_true]

/-- The arithmetic of one filler, over all three choices of its size. -/
theorem getDelayPktBadCrc_long (small : 20 ≤ minPktSize) (large : minPktSize ≤ 463)
    (below : leftoverDelay < minPktSize) (word : delay ≤ 0x0fffffff) (positive : 0 < delay)
    (long : minPktSize ≤ leftoverDelay + delay) :
    ∃ pkt rem, getDelayPktBadCrc leftoverDelay delay minPktSize =
        { pkt := some pkt, remDelay := rem, leftoverDelay := 0 } ∧
      pkt.pktLen + 20 + rem + lostDelay leftoverDelay delay = leftoverDelay + delay ∧
      minPktSize ≤ pkt.pktLen + 20 ∧ pkt.pktLen + 20 ≤ 1538 ∧
      (rem = 0 ∨ 1538 ≤ leftoverDelay + delay ∧ minPktSize ≤ rem + leftoverDelay) := by
  have sum : (delay + leftoverDelay) % 2 ^ 64 = leftoverDelay + delay := by omega
  refine ⟨_, _, by simp only [getDelayPktBadCrc, sum, Nat.not_lt.mpr long, if_false]; rfl, ?_⟩
  rcases Nat.lt_or_ge (leftoverDelay + delay) 1538 with one | more
  · have kept : lostDelay leftoverDelay delay = 0 := if_pos (.inr one)
    simp only [one, if_true, kept]
    split <;> omega
  · have lost : lostDelay leftoverDelay delay = leftoverDelay := if_neg (by omega)
    simp only [Nat.not_lt.mpr more, if_false, lost]
    -- the first filler never exceeds the delay itself, so the leftover is dropped
    by_cases far : leftoverDelay + delay > 2000
    · have within : ¬1538 > delay := by omega
      simp only [far, if_true, within, if_false]
      omega
    · have within : ¬(leftoverDelay + delay) / 2 > delay := by omega
      simp only [far, if_false, within]
      omega

/-- Every round of the delay loop lowers the delay, whatever it chooses. Only a
sum that wraps around to zero and a minimum size of zero would not. -/
theorem getDelayPktBadCrc_remDelay_lt (either : 0 < minPktSize ∨ 0 < (delay + leftoverDelay) % 2 ^ 64)
    (positive : 0 < delay) : (getDelayPktBadCrc leftoverDelay delay minPktSize).remDelay < delay := by
  unfold getDelayPktBadCrc
  dsimp only
  generalize (delay + leftoverDelay) % 2 ^ 64 = sum at either ⊢
  split
  · exact positive
  · generalize chosen : (if sum < 1538 then sum else if sum > 2000 then 1538 else sum / 2) = length
    have long : 0 < length := by
      split at chosen
      · omega
      · split at chosen <;> omega
    dsimp only
    split <;> omega

theorem getDelayPktBadCrc_leftover_lt (large : minPktSize ≤ 463) :
    (getDelayPktBadCrc leftoverDelay delay minPktSize).leftoverDelay < 463 := by
  unfold getDelayPktBadCrc
  dsimp only
  split
  · dsimp only
    omega
  · exact Nat.succ_pos _

@[simp] theorem fillersLoop_zero (fuel : Nat) : fillersLoop minPktSize fuel 0 leftoverDelay = ([], leftoverDelay) := by
  cases fuel <;> simp [fillersLoop]

@[simp] theorem lostDelay_zero : lostDelay 0 delay = 0 := by simp [lostDelay]

/-- What is left of the delay behind a filler is smaller, so that the fuel
never runs out. -/
theorem fillersLoop_balance (small : 20 ≤ minPktSize) (large : minPktSize ≤ 463) {fuel : Nat}
    (enough : delay ≤ fuel) (word : delay ≤ 0x0fffffff) (below : leftoverDelay < minPktSize) :
    fillerTime (fillersLoop minPktSize fuel delay leftoverDelay).1 +
        (fillersLoop minPktSize fuel delay leftoverDelay).2 + lostDelay leftoverDelay delay =
      leftoverDelay + delay ∧ (fillersLoop minPktSize fuel delay leftoverDelay).2 < minPktSize := by
  induction fuel generalizing delay leftoverDelay with
  | zero =>
    have undelayed : delay = 0 := by omega
    subst delay
    simpa [lostDelay] using below
  | succ fuel ih =>
    rcases Nat.eq_zero_or_pos delay with rfl | positive
    · simpa [lostDelay] using below
    · by_cases short : leftoverDelay + delay < minPktSize
      · have kept : lostDelay leftoverDelay delay = 0 := if_pos (.inr (by omega))
        simp only [fillersLoop, positive, if_true, getDelayPktBadCrc_short (by omega) short, fillersLoop_zero, kept]
        exact ⟨by simp, short⟩
      · obtain ⟨pkt, rem, run, balance, _, _, next⟩ :=
          getDelayPktBadCrc_long small large below word positive (by omega)
        have lower : rem < delay := by
          rcases next with ended | ⟨more, _⟩
          · omega
          · have lost : lostDelay leftoverDelay delay = leftoverDelay := if_neg (by omega)
            omega
        obtain ⟨rest, last⟩ := @ih 0 rem (by omega) (by omega) (by omega)
        simp only [fillersLoop, positive, if_true, run, Option.toList_some, List.singleton_append, fillerTime_cons]
        rw [lostDelay_zero] at rest
        exact ⟨by omega, last⟩

/-- A delay that starts without a leftover is never cut so that a remainder
below the minimum size is stranded. -/
theorem fillersLoop_exact (small : 20 ≤ minPktSize) (large : minPktSize ≤ 463) {fuel : Nat}
    (enough : delay ≤ fuel) (word : delay ≤ 0x0fffffff) (whole : delay = 0 ∨ minPktSize ≤ delay) :
    (fillersLoop minPktSize fuel delay 0).2 = 0 := by
  induction fuel generalizing delay with
  | zero => rfl
  | succ fuel ih =>
    rcases Nat.eq_zero_or_pos delay with rfl | positive
    · simp
    · obtain ⟨pkt, rem, run, balance, _, _, next⟩ :=
        @getDelayPktBadCrc_long minPktSize 0 delay small large (by omega) word positive (by omega)
      rw [lostDelay_zero] at balance
      have rest := @ih rem (by omega) (by omega) (by omega)
      simp only [fillersLoop, positive, if_true, run]
      exact rest

/-- Every filler lasts at least the minimum size and at most a full frame. -/
theorem fillersLoop_sizes (small : 20 ≤ minPktSize) (large : minPktSize ≤ 463) {fuel : Nat}
    (word : delay ≤ 0x0fffffff) (below : leftoverDelay < minPktSize) :
    ∀ f ∈ (fillersLoop minPktSize fuel delay leftoverDelay).1,
      minPktSize ≤ f.pktLen + 20 ∧ f.pktLen + 20 ≤ 1538 := by
  induction fuel generalizing delay leftoverDelay with
  | zero => simp [fillersLoop]
  | succ fuel ih =>
    rcases Nat.eq_zero_or_pos delay with rfl | positive
    · simp
    · by_cases short : leftoverDelay + delay < minPktSize
      · simp [fillersLoop, positive, getDelayPktBadCrc_short (by omega) short]
      · obtain ⟨pkt, rem, run, balance, least, most, _⟩ :=
          getDelayPktBadCrc_long small large below word positive (by omega)
        have rest := @ih 0 rem (by omega) (by omega)
        simp only [fillersLoop, positive, if_true, run, Option.toList_some, List.singleton_append]
        exact List.forall_mem_cons.mpr ⟨⟨least, most⟩, rest⟩

/-- One delay in full: the fillers, the new leftover and the loss account for
the old leftover and the delay, and without a loss the new leftover is what
the minimum size alone decides. -/
theorem fillersFor_spec (small : 20 ≤ minPktSize) (large : minPktSize ≤ 463) (word : delay ≤ 0x0fffffff)
    (below : leftoverDelay < minPktSize) :
    fillerTime (fillersFor minPktSize leftoverDelay delay).1 + (fillersFor minPktSize leftoverDelay delay).2 +
        lostDelay leftoverDelay delay = leftoverDelay + delay ∧
      (fillersFor minPktSize leftoverDelay delay).2 < minPktSize ∧
      (lostDelay leftoverDelay delay = 0 → (fillersFor minPktSize leftoverDelay delay).2 =
        if leftoverDelay + delay < minPktSize then leftoverDelay + delay else 0) := by
  obtain ⟨balance, last⟩ := fillersLoop_balance small large le_rfl word below
  refine ⟨balance, last, fun kept => ?_⟩
  cases delay with
  | zero =>
    simp only [fillersFor, fillersLoop_zero, Nat.add_zero, below, if_true]
  | succ less =>
    by_cases short : leftoverDelay + (less + 1) < minPktSize
    · simp only [fillersFor, fillersLoop, Nat.succ_pos, if_true, getDelayPktBadCrc_short (by omega) short,
        fillersLoop_zero, short]
    · obtain ⟨pkt, rem, run, sum, _, _, next⟩ :=
        @getDelayPktBadCrc_long minPktSize leftoverDelay (less + 1) small large below word (by omega) (by omega)
      have rest : (fillersLoop minPktSize less rem 0).2 = 0 := by
        rcases next with ended | ⟨more, enough⟩
        · simp [ended]
        · have lost : lostDelay leftoverDelay (less + 1) = leftoverDelay := if_neg (by omega)
          exact fillersLoop_exact small large (by omega) (by omega) (.inr (by omega))
      simp only [fillersFor, fillersLoop, Nat.succ_pos, if_true, run, short, if_false]
      exact rest

end

end MoonGen
