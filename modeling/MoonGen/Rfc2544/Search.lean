import Mathlib.Algebra.Group.Nat.Defs
import Mathlib.Data.Rat.Floor

namespace MoonGen

namespace Rfc2544

/-- `binarySearch` over whole numbers. -/
structure BinarySearch where
  lowerLimit : Nat
  upperLimit : Nat

/-- `binarySearch:next`, with the object behind it. -/
def BinarySearch.next (b : BinarySearch) (curr : Nat) (top : Bool) (threshold : ℚ) : BinarySearch × Nat × Bool :=
  if top ∧ curr = b.upperLimit then (b, curr, true)
  else
    -- The test of a value that is too large reads a global `lowerLimit`, which is not set, and never holds.
    let b : BinarySearch := if top then ⟨curr, b.upperLimit⟩ else ⟨b.lowerLimit, curr⟩
    let nextVal := (b.lowerLimit + b.upperLimit + 1) / 2
    if ((nextVal - curr + (curr - nextVal) : Nat) : ℚ) < threshold then (b, curr, true) else (b, nextVal, false)

/-- A rate and the packets that were sent and received at it. -/
structure Trial where
  rate : Nat
  spkts : Nat
  rpkts : Nat

/-- The benchmark of the throughput, whether it still runs behind so many trials, and what the device answers
to a rate in each round. -/
structure Benchmark where
  maxLossRate : ℚ
  rateThreshold : ℚ
  running : Nat → Bool
  device : Nat → Nat → Nat × Nat

/-- An iteration of `benchmark:bench`: `result` is what `results[iteration]` is made of. -/
structure Iteration where
  search : BinarySearch
  rate : Nat
  result : Trial := ⟨0, 0, 0⟩
  trials : List Trial := []

namespace Benchmark
variable (c : Benchmark)

/-- `validRun`. Without a packet sent the quotient is not a number or negative. -/
def valid (t : Trial) : Bool :=
  if t.spkts = 0 then t.rpkts ≠ 0 else ((t.spkts - t.rpkts) / t.spkts : ℚ) ≤ c.maxLossRate

def trial (s : Iteration) : Trial :=
  ⟨s.rate, (c.device s.trials.length s.rate).1, (c.device s.trials.length s.rate).2⟩

/-- A round of the loop, and whether it is the last one. -/
def round (s : Iteration) : Iteration × Bool :=
  let next := s.search.next s.rate (c.valid (c.trial s)) c.rateThreshold
  ({ search := next.1
     rate := next.2.1
     result := if c.valid (c.trial s) then c.trial s else s.result
     trials := c.trial s :: s.trials }, next.2.2)

def loop : Nat → Iteration → Option Iteration
  | 0, _ => none
  | fuel + 1, s =>
    if c.running s.trials.length then
      if (c.round s).2 then some (c.round s).1 else loop fuel (c.round s).1
    else some s

def bench (maxLinkRate fuel : Nat) : Option Iteration := c.loop fuel { search := ⟨0, maxLinkRate⟩, rate := maxLinkRate }

/-- The result is the valid trial with the largest rate, if there is one. -/
structure Best (s : Iteration) : Prop where
  measured : ∀ t ∈ s.trials, ∃ k, (t.spkts, t.rpkts) = c.device k t.rate
  known : s.result = ⟨0, 0, 0⟩ ∨ s.result ∈ s.trials ∧ c.valid s.result = true
  largest : ∀ t ∈ s.trials, c.valid t = true → t.rate ≤ s.result.rate

def Fails (s : Iteration) (rate : Nat) : Prop := ∃ t ∈ s.trials, c.valid t = false ∧ t.rate = rate

/-- Between the rounds the limits are the best trial and one that is not valid, with the next rate between them. -/
structure Narrows (s : Iteration) : Prop extends c.Best s where
  lower : s.search.lowerLimit = s.result.rate
  upper : c.Fails s s.search.upperLimit
  ordered : s.search.lowerLimit ≤ s.search.upperLimit
  middle : s.rate = (s.search.lowerLimit + s.search.upperLimit + 1) / 2

/-- The result is the link rate, or not far below a rate that fails. -/
def Close (maxLinkRate : Nat) (s : Iteration) : Prop :=
  s.result.rate = maxLinkRate ∨
    ∃ rate, c.Fails s rate ∧ s.result.rate ≤ rate ∧ rate < s.result.rate + 2 * ⌈c.rateThreshold⌉₊

/-- What the loop comes to. -/
structure Done (maxLinkRate : Nat) (s : Iteration) : Prop extends c.Best s where
  close : (∀ k, c.running k = true) → c.Close maxLinkRate s

variable {c} {s t : Iteration} {last : Bool} {maxLinkRate n : Nat}

theorem Best.round (best : c.Best s) (above : s.result.rate ≤ s.rate) : c.Best (c.round s).1 := by
  refine ⟨fun t member => ?_, ?_, fun t member valid => ?_⟩
  · rcases List.mem_cons.mp member with rfl | old
    · exact ⟨_, rfl⟩
    · exact best.measured t old
  · simp only [Benchmark.round]
    split
    case isTrue valid => exact .inr ⟨List.mem_cons_self, valid⟩
    case isFalse => exact best.known.imp_right fun ⟨old, valid⟩ => ⟨List.mem_cons_of_mem _ old, valid⟩
  · simp only [Benchmark.round] at member ⊢
    rcases List.mem_cons.mp member with rfl | old
    · rw [if_pos valid]
    · have least := best.largest t old valid
      split
      · exact least.trans above
      · exact least

/-- A round either ends close to a rate that fails, or goes on with one of the two parts that the rate makes of
what is between the limits. -/
theorem Best.round_cases (best : c.Best s) (positive : 0 < c.rateThreshold)
    (lower : s.search.lowerLimit = s.result.rate) (above : s.search.lowerLimit ≤ s.rate)
    (below : s.rate ≤ s.search.upperLimit)
    (upper : c.Fails s s.search.upperLimit ∨ s.rate = maxLinkRate ∧ s.search.upperLimit = maxLinkRate)
    (round : c.round s = (t, last)) :
    last = true ∧ c.Done maxLinkRate t ∨ last = false ∧ c.Narrows t ∧
      (s.rate < s.search.upperLimit ∧ t.search = ⟨s.rate, s.search.upperLimit⟩ ∨
        s.search.lowerLimit + 1 < s.rate ∧ t.search = ⟨s.search.lowerLimit, s.rate⟩) := by
  have best : c.Best (t, last).1 := round ▸ best.round (lower ▸ above)
  have tried : (t, last).1.trials = c.trial s :: s.trials := round ▸ rfl
  have failed {rate : Nat} : c.Fails s rate → c.Fails t rate := fun ⟨u, old, fails⟩ =>
    ⟨u, tried ▸ List.mem_cons_of_mem _ old, fails⟩
  have same : (c.trial s).rate = s.rate := rfl
  have whole : 0 < ⌈c.rateThreshold⌉₊ := Nat.ceil_pos.mpr positive
  simp only [Benchmark.round, BinarySearch.next, ← Nat.lt_ceil] at round
  cases valid : c.valid (c.trial s) with
  | true =>
    simp only [valid, if_true, true_and] at round
    split at round
    case isTrue only =>
      cases round
      rcases upper with fails | limit
      · refine .inl ⟨rfl, { best with close := fun _ => .inr ⟨_, failed fails, ?_⟩ }⟩
        simp only [same]
        omega
      · exact .inl ⟨rfl, { best with close := fun _ => .inl limit.1 }⟩
    case isFalse inside =>
      have fails := upper.resolve_right fun limit => inside (limit.1.trans limit.2.symm)
      split at round
      case isTrue near =>
        cases round
        refine .inl ⟨rfl, { best with close := fun _ => .inr ⟨_, failed fails, ?_⟩ }⟩
        simp only [same]
        omega
      case isFalse =>
        cases round
        exact .inr ⟨rfl, { best with lower := rfl, upper := failed fails, ordered := below, middle := rfl },
          .inl ⟨by omega, rfl⟩⟩
  | false =>
    have fails : c.Fails t s.rate := ⟨_, tried ▸ List.mem_cons_self, valid, rfl⟩
    simp only [valid, Bool.false_eq_true, if_false, false_and] at round
    split at round
    case isTrue near =>
      cases round
      refine .inl ⟨rfl, { best with close := fun _ => .inr ⟨_, fails, ?_⟩ }⟩
      simp only [← lower]
      omega
    case isFalse far =>
      cases round
      exact .inr ⟨rfl, { best with lower := lower, upper := fails, ordered := above, middle := rfl },
        .inr ⟨by omega, rfl⟩⟩

theorem loop_ends {P : Iteration → Prop} (stopped : c.running s.trials.length = false → P s)
    (round : c.round s = (t, last))
    (ends : last = true ∧ P t ∨ last = false ∧ ∃ r, (∀ fuel, n ≤ fuel → c.loop fuel t = some r) ∧ P r) :
    ∃ r, (∀ fuel, n + 1 ≤ fuel → c.loop fuel s = some r) ∧ P r := by
  have step (fuel : Nat) : c.loop (fuel + 1) s =
      if c.running s.trials.length then if last then some t else c.loop fuel t else some s := by
    rw [loop, round]
  have more {r : Iteration} (all : ∀ fuel, n ≤ fuel → c.loop (fuel + 1) s = some r) (fuel : Nat)
      (enough : n + 1 ≤ fuel) : c.loop fuel s = some r := by
    obtain ⟨fuel, rfl⟩ := Nat.exists_eq_add_of_le' enough
    exact all _ (Nat.le_add_left n fuel)
  cases run : c.running s.trials.length with
  | false => exact ⟨s, more fun fuel _ => by rw [step, run]; rfl, stopped run⟩
  | true =>
    rw [run] at step
    rcases ends with ⟨rfl, holds⟩ | ⟨rfl, r, rest, holds⟩
    · exact ⟨t, more fun fuel _ => step fuel, holds⟩
    · exact ⟨r, more fun fuel enough => (step fuel).trans (rest fuel enough), holds⟩

/-- A benchmark that is stopped has its best trial. -/
theorem Best.stopped (best : c.Best s) (maxLinkRate : Nat) (stops : c.running s.trials.length = false) :
    c.Done maxLinkRate s :=
  { best with close := fun running => by rw [running] at stops; cases stops }

/-- A round that is not the last one leaves half of what is between the limits. -/
theorem Narrows.round (narrows : c.Narrows s) (positive : 0 < c.rateThreshold) (round : c.round s = (t, last)) :
    last = true ∧ c.Done maxLinkRate t ∨ last = false ∧ c.Narrows t ∧
      1 < s.search.upperLimit - s.search.lowerLimit ∧
      2 * (t.search.upperLimit - t.search.lowerLimit) ≤ s.search.upperLimit - s.search.lowerLimit + 1 := by
  have middle := narrows.middle
  have ordered := narrows.ordered
  refine (narrows.round_cases positive narrows.lower (by omega) (by omega) (.inl narrows.upper) round).imp_right ?_
  rintro ⟨going, narrows', ⟨inside, limits⟩ | ⟨inside, limits⟩⟩ <;> rw [limits] <;>
    exact ⟨going, narrows', by omega, by simp only; omega⟩

theorem Narrows.loop (narrows : c.Narrows s) (positive : 0 < c.rateThreshold)
    (gap : s.search.upperLimit - s.search.lowerLimit ≤ 2 ^ n) :
    ∃ r, (∀ fuel, n + 1 ≤ fuel → c.loop fuel s = some r) ∧ c.Done maxLinkRate r := by
  have stopped := narrows.toBest.stopped maxLinkRate
  induction n generalizing s with
  | zero =>
    exact loop_ends stopped rfl ((narrows.round positive rfl).imp_right fun ⟨_, _, wide, _⟩ => by omega)
  | succ n ih =>
    refine loop_ends stopped rfl ((narrows.round positive rfl).imp_right ?_)
    rintro ⟨going, rest, _, half⟩
    refine ⟨going, ih rest ?_ (rest.toBest.stopped maxLinkRate)⟩
    rw [Nat.pow_succ] at gap
    omega

theorem bench_done (positive : 0 < c.rateThreshold) (bound : maxLinkRate ≤ 2 ^ n) :
    ∃ r, (∀ fuel, n + 2 ≤ fuel → c.bench maxLinkRate fuel = some r) ∧ c.Done maxLinkRate r := by
  have best : c.Best { search := ⟨0, maxLinkRate⟩, rate := maxLinkRate } :=
    ⟨List.forall_mem_nil _, .inl rfl, List.forall_mem_nil _⟩
  have first := best.round_cases positive rfl (Nat.zero_le _) (Nat.le_refl _) (.inr ⟨rfl, rfl⟩) rfl
  refine loop_ends (best.stopped maxLinkRate) rfl (first.imp_right ?_)
  rintro ⟨going, narrows, ⟨inside, limits⟩ | ⟨inside, limits⟩⟩
  · exact absurd inside (Nat.lt_irrefl _)
  · exact ⟨going, narrows.loop positive (by rw [limits]; exact bound)⟩

end Benchmark

/-- The search ends after the first rate and one round for each halving, whatever the device does. A device that keeps
to the loss rate up to some rate is measured to less than twice the threshold, unless the benchmark is stopped. -/
theorem bench_correct (c : Benchmark) (positive : 0 < c.rateThreshold) {maxLinkRate n : Nat}
    (bound : maxLinkRate ≤ 2 ^ n) :
    ∃ r, (∀ fuel, n + 2 ≤ fuel → c.bench maxLinkRate fuel = some r) ∧ c.Done maxLinkRate r ∧
      ∀ capacity, (∀ k rate, c.valid ⟨rate, (c.device k rate).1, (c.device k rate).2⟩ = true ↔ rate ≤ capacity) →
        r.result.rate ≤ capacity ∧ ((∀ k, c.running k = true) →
          min capacity maxLinkRate < r.result.rate + 2 * ⌈c.rateThreshold⌉₊) := by
  obtain ⟨r, ends, done⟩ := Benchmark.bench_done positive bound
  refine ⟨r, ends, done, fun capacity keeps => ?_⟩
  have answers : ∀ t ∈ r.trials, (c.valid t = true ↔ t.rate ≤ capacity) := by
    rintro ⟨rate, spkts, rpkts⟩ tried
    obtain ⟨k, counts⟩ := done.measured _ tried
    have keeps := keeps k rate
    rw [← show (spkts, rpkts) = c.device k rate from counts] at keeps
    exact keeps
  constructor
  · rcases done.known with initial | ⟨tried, valid⟩
    · rw [initial]
      exact Nat.zero_le _
    · exact (answers _ tried).mp valid
  · intro running
    have whole : 0 < ⌈c.rateThreshold⌉₊ := Nat.ceil_pos.mpr positive
    rcases done.close running with most | ⟨_, ⟨t, tried, fails, rfl⟩, _, near⟩
    · omega
    · have above : ¬t.rate ≤ capacity := fun within => by
        rw [(answers t tried).mpr within] at fails
        cases fails
      omega

/-- A device that loses every packet above a rate of six. -/
def sixOfTen : Benchmark where
  maxLossRate := 0
  rateThreshold := 1 / 2
  running _ := true
  device _ rate := (rate + 1, min rate 6 + 1)

theorem bench_correct_ten : ∃ r, (∀ fuel, 6 ≤ fuel → sixOfTen.bench 10 fuel = some r) ∧ sixOfTen.Done 10 r ∧
    r.result.rate ≤ 6 ∧ 6 < r.result.rate + 2 := by
  have positive : 0 < sixOfTen.rateThreshold := by decide +kernel
  have keeps (k rate : Nat) : sixOfTen.valid ⟨rate, rate + 1, min rate 6 + 1⟩ = true ↔ rate ≤ 6 := by
    have packets : (0 : ℚ) < (rate + 1 : Nat) := Nat.cast_pos.mpr rate.succ_pos
    rw [Benchmark.valid, if_neg rate.succ_ne_zero, decide_eq_true_eq, sixOfTen, div_le_iff₀ packets, zero_mul, sub_nonpos,
      Nat.cast_le]
    dsimp only
    omega
  obtain ⟨r, ends, done, capacity⟩ := bench_correct sixOfTen positive (by decide : 10 ≤ 2 ^ 4)
  obtain ⟨most, near⟩ := capacity 6 keeps
  have whole : ⌈sixOfTen.rateThreshold⌉₊ = 1 := by decide +kernel
  have near := near fun _ => rfl
  rw [whole] at near
  exact ⟨r, ends, done, most, by omega⟩

end Rfc2544

end MoonGen
