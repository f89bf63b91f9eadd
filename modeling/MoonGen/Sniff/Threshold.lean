import MoonGen.Sniff.Live

namespace MoonGen

open List

/-- What a call finds after some others, if it is a test that hits. -/
def SniffCall.found (before : List SniffCall) : SniffCall → Option Int64
  | .addEntry _ _ => none
  | .testFor identification timestamp => matched before identification timestamp

/-- The differences of the hits among calls that follow some others. -/
def samplesAfter (before : List SniffCall) : List SniffCall → List Int64
  | [] => []
  | c :: calls => (c.found before).toList ++ samplesAfter (before ++ [c]) calls

def samples (calls : List SniffCall) : List Int64 := samplesAfter [] calls

theorem samplesAfter_append (before calls : List SniffCall) (c : SniffCall) :
    samplesAfter before (calls ++ [c]) = samplesAfter before calls ++ (c.found (before ++ calls)).toList := by
  induction calls generalizing before with
  | nil => simp [samplesAfter]
  | cons d calls ih =>
    rw [cons_append, samplesAfter, samplesAfter, ih, append_assoc, append_assoc, singleton_append]

theorem samples_append (calls : List SniffCall) (c : SniffCall) :
    samples (calls ++ [c]) = samples calls ++ (c.found calls).toList :=
  samplesAfter_append [] calls c

namespace Sniffer

theorem latency_run {s : Sniffer} (empty : ∀ slot, s.hitList slot = ⟨0, 0⟩) (calls : List SniffCall) :
    (s.run calls).latency = ((samples calls).map fun d => (d.toInt : ℚ)).foldl Welford.update s.latency := by
  induction calls using List.reverseRecOn with
  | nil => rfl
  | append_singleton calls c ih =>
    rw [run_append, samples_append, map_append, foldl_append, ← ih]
    cases c with
    | addEntry identification timestamp => rfl
    | testFor identification timestamp =>
      rw [call, (testFor_counted empty calls identification timestamp).latency, SniffCall.found]
      cases matched calls identification timestamp <;> rfl

/-- What the threshold is for: the hits below it leave no trace in the statistics. -/
def Thresholded (s : Sniffer) (thresh : Int64) (differences : List Int64) : Prop :=
  let kept := (differences.filter fun d => thresh ≤ d).map fun d => (d.toInt : ℚ)
  s.latency.count = kept.length ∧ s.latency.mean = Welford.average kept ∧ s.latency.m2 = Welford.deviation kept

end Sniffer

end MoonGen
