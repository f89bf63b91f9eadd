import Mathlib.Data.List.Nodup
import MoonGen.Lib.Compaction

namespace MoonGen

open List

universe u

/-- A counter of a device in one direction, with the flows that use it. -/
structure DeviceCounter (φ : Type u) where
  flows : List φ
  counter : Nat

inductive CounterCall
  | update (counter : Nat)
  | finalize (counter : Nat)
deriving DecidableEq, Repr

/-- What `isZero` answers for a flow when the flows of a counter are looked at. -/
abbrev ZeroObservation (φ : Type u) := Nat → φ → Bool

variable {φ : Type u}

def isActive (isZero : φ → Bool) (flows : List φ) : Bool := flows.any fun flow => !isZero flow

def DeviceCounter.active (ctr : DeviceCounter φ) (seen : ZeroObservation φ) : Bool :=
  isActive (seen ctr.counter) ctr.flows

/-- The variables of one round over the table. -/
structure StatsRound (φ : Type u) where
  counters : Nat → Option (DeviceCounter φ)
  offset : Nat
  calls : List CounterCall

/-- The body of the inner loop, which has no value where a field of `nil` is read. -/
def StatsRound.visit (seen : ZeroObservation φ) (s : StatsRound φ) (i : Nat) : Option (StatsRound φ) :=
  match s.counters i with
  | none => none
  | some ctr =>
    let active := isActive (seen ctr.counter) ctr.flows
    let s := if active then { s with calls := s.calls ++ [.update ctr.counter] } else s
    if !active then
      some {
        counters := Function.update s.counters i none
        offset := s.offset + 1
        calls := s.calls ++ [.finalize ctr.counter] }
    else if s.offset > 0 then
      some { s with counters := Function.update (Function.update s.counters i none) (i - s.offset) (some ctr) }
    else some s

/-- The thread between two rounds, with the calls of each round so far. -/
structure StatsThread (φ : Type u) where
  counters : Nat → Option (DeviceCounter φ)
  len : Nat
  log : List (List CounterCall)

def StatsThread.round (s : StatsThread φ) (seen : ZeroObservation φ) : Option (StatsThread φ) := do
  let after ← (List.range' 1 s.len).foldlM (StatsRound.visit seen) { counters := s.counters, offset := 0, calls := [] }
  return { counters := after.counters, len := s.len - after.offset, log := s.log ++ [after.calls] }

/-- The outer loop, with what each round sees for as long as `mg.running` holds. -/
def StatsThread.rounds : StatsThread φ → List (ZeroObservation φ) → Option (StatsThread φ)
  | s, [] => some s
  | s, seen :: later => if s.len > 0 then (s.round seen).bind (·.rounds later) else some s

/-- The counters in the order in which they are inserted, each a new one. -/
def deviceCounters (tx rx : List (List φ)) : List (DeviceCounter φ) :=
  (tx ++ rx).mapIdx fun i flows => { flows, counter := i }

def deviceStatsThread (tx rx : List (List φ)) (seen : List (ZeroObservation φ)) : Option (StatsThread φ) :=
  let counters := deviceCounters tx rx
  StatsThread.rounds {
    counters := fun i => if i = 0 then none else counters[i - 1]?
    len := counters.length
    log := [] } seen

/-- The counters that were active in all of some rounds. -/
def activeThrough (counters : List (DeviceCounter φ)) (seen : List (ZeroObservation φ)) : List (DeviceCounter φ) :=
  counters.filter fun ctr => seen.all ctr.active

/-- What a round calls on a counter that it finds in the table. -/
def DeviceCounter.call (seen : ZeroObservation φ) (ctr : DeviceCounter φ) : CounterCall :=
  if ctr.active seen then .update ctr.counter else .finalize ctr.counter

def CounterCall.counter : CounterCall → Nat
  | update counter => counter
  | finalize counter => counter

/-- The calls of a round, one for each counter that was active in all rounds before. -/
def roundCalls (counters : List (DeviceCounter φ)) (seen : List (ZeroObservation φ)) (r : Nat) : List CounterCall :=
  match seen[r]? with
  | none => []
  | some now => (activeThrough counters (seen.take r)).map (·.call now)

/-- The thread after some rounds: what is in the table, and what the rounds called. The
loop may be over early, but then no counter is left. -/
structure StatsThread.Follows (s : StatsThread φ) (counters : List (DeviceCounter φ))
    (seen : List (ZeroObservation φ)) : Prop where
  len : s.len = (activeThrough counters seen).length
  slots : ∀ k, s.counters (k + 1) = (activeThrough counters seen)[k]?
  number : 0 < s.len → s.log.length = seen.length
  calls : ∀ r, s.log.getD r [] = roundCalls counters seen r

section Calls

variable {counters : List (DeviceCounter φ)} {ctr : DeviceCounter φ} {now : ZeroObservation φ}
  {before seen : List (ZeroObservation φ)}

theorem activeThrough_append : activeThrough counters (before ++ seen) =
    (activeThrough counters before).filter fun ctr => seen.all ctr.active := by
  rw [activeThrough, activeThrough, filter_filter]
  congr 1
  funext ctr
  rw [all_append, Bool.and_comm]

theorem activeThrough_concat : activeThrough counters (before ++ [now]) =
    (activeThrough counters before).filter (·.active now) := by
  simp only [activeThrough_append, all_cons, all_nil, Bool.and_true]

theorem mem_activeThrough : ctr ∈ activeThrough counters seen ↔ ctr ∈ counters ∧ ∀ o ∈ seen, ctr.active o = true := by
  rw [activeThrough, mem_filter, all_eq_true]

theorem roundCalls_concat (r : Nat) : roundCalls counters (before ++ [now]) r =
    if r = before.length then (activeThrough counters before).map (·.call now) else roundCalls counters before r := by
  rcases Nat.lt_trichotomy r before.length with earlier | rfl | beyond
  · rw [if_neg (by omega), roundCalls, getElem?_append_left earlier, take_append_of_le_length (by omega),
      roundCalls]
  · rw [if_pos rfl, roundCalls, getElem?_concat_length, take_left]
  · rw [if_neg (by omega), roundCalls, roundCalls, getElem?_eq_none (by simp; omega),
      getElem?_eq_none (by omega)]

/-- Once no counter is left, further rounds would call nothing. -/
theorem roundCalls_append (gone : activeThrough counters before = []) (r : Nat) :
    roundCalls counters (before ++ seen) r = roundCalls counters before r := by
  rcases Nat.lt_or_ge r before.length with earlier | beyond
  · rw [roundCalls, getElem?_append_left earlier, take_append_of_le_length (by omega), roundCalls]
  · have empty : activeThrough counters ((before ++ seen).take r) = [] := by
      rw [take_append, take_of_length_le beyond, activeThrough_append, gone, filter_nil]
    rw [roundCalls, roundCalls, getElem?_eq_none beyond, empty]
    split <;> rfl

theorem DeviceCounter.call_counter : (ctr.call now).counter = ctr.counter := by
  rw [call]
  split <;> rfl

theorem DeviceCounter.finalize_eq_call : CounterCall.finalize ctr.counter = ctr.call now ↔ ctr.active now = false := by
  cases active : ctr.active now <;> simp [call, active]

theorem DeviceCounter.update_eq_call : CounterCall.update ctr.counter = ctr.call now ↔ ctr.active now = true := by
  cases active : ctr.active now <;> simp [call, active]

theorem roundCalls_nodup (distinct : (counters.map DeviceCounter.counter).Nodup) (r : Nat) :
    (roundCalls counters seen r).Nodup := by
  rw [roundCalls]
  split
  · exact nodup_nil
  · refine List.Nodup.of_map CounterCall.counter ?_
    rw [map_map]
    simp only [Function.comp_def, DeviceCounter.call_counter]
    exact distinct.sublist (filter_sublist.map _)

theorem mem_roundCalls (distinct : (counters.map DeviceCounter.counter).Nodup) (member : ctr ∈ counters) (r : Nat)
    (c : CounterCall) (own : c.counter = ctr.counter) :
    c ∈ roundCalls counters seen r ↔
      ∃ now ∈ seen[r]?, (∀ o ∈ seen.take r, ctr.active o = true) ∧ c = ctr.call now := by
  rw [roundCalls]
  split
  · simp_all
  · rename_i now found
    simp only [found, Option.mem_def, Option.some_inj, exists_eq_left', mem_map, mem_activeThrough]
    constructor
    · rintro ⟨other, ⟨member', active⟩, rfl⟩
      rw [DeviceCounter.call_counter] at own
      cases inj_on_of_nodup_map distinct member' member own
      exact ⟨active, rfl⟩
    · rintro ⟨active, rfl⟩
      exact ⟨ctr, ⟨member, active⟩, rfl⟩

end Calls

theorem StatsRound.visit_active {seen : ZeroObservation φ} {s : StatsRound φ} {i : Nat} {ctr : DeviceCounter φ}
    (found : s.counters i = some ctr) (active : ctr.active seen = true) :
    s.visit seen i = some {
      counters := if s.offset > 0 then Function.update (Function.update s.counters i none) (i - s.offset) (some ctr)
        else s.counters
      offset := s.offset
      calls := s.calls ++ [ctr.call seen] } := by
  have flows : isActive (seen ctr.counter) ctr.flows = true := active
  simp only [visit, found, flows, DeviceCounter.call, active, if_true, Bool.not_true, Bool.false_eq_true, if_false]
  split <;> rfl

theorem StatsRound.visit_inactive {seen : ZeroObservation φ} {s : StatsRound φ} {i : Nat} {ctr : DeviceCounter φ}
    (found : s.counters i = some ctr) (inactive : ctr.active seen = false) :
    s.visit seen i = some {
      counters := Function.update s.counters i none
      offset := s.offset + 1
      calls := s.calls ++ [ctr.call seen] } := by
  have flows : isActive (seen ctr.counter) ctr.flows = false := inactive
  simp only [visit, found, flows, DeviceCounter.call, inactive, if_false, Bool.not_false, if_true, Bool.false_eq_true]

theorem StatsRound.visit_layout (seen : ZeroObservation φ) {s : StatsRound φ} {kept rest : List (DeviceCounter φ)}
    {ctr : DeviceCounter φ} (layout : Compacting s.counters kept s.offset (ctr :: rest)) :
    ∃ t : StatsRound φ, s.visit seen (kept.length + s.offset + 1) = some t ∧ t.calls = s.calls ++ [ctr.call seen] ∧
      t.offset + ([ctr].filter (·.active seen)).length = s.offset + 1 ∧
      Compacting t.counters (kept ++ [ctr].filter (·.active seen)) t.offset rest := by
  cases active : ctr.active seen with
  | false =>
    have empty : [ctr].filter (·.active seen) = [] := by simp [active]
    rw [empty, append_nil]
    exact ⟨_, visit_inactive layout.visited active, rfl, rfl, layout.drop⟩
  | true =>
    have same : [ctr].filter (·.active seen) = [ctr] := by simp [active]
    rw [same]
    refine ⟨_, visit_active layout.visited active, rfl, rfl, ?_⟩
    rcases Nat.eq_zero_or_pos s.offset with empty | wide
    · rw [if_neg (by omega)]
      simp only [empty] at layout ⊢
      exact layout.stay
    · rw [if_pos wide, show kept.length + s.offset + 1 - s.offset = kept.length + 1 by omega]
      exact layout.move wide

/-- The rest of a round, from any place in the table. -/
theorem StatsRound.visits {seen : ZeroObservation φ} {s : StatsRound φ} {kept rest : List (DeviceCounter φ)}
    (layout : Compacting s.counters kept s.offset rest) :
    ∃ after, (List.range' (kept.length + s.offset + 1) rest.length).foldlM (visit seen) s = some after ∧
      Compacting after.counters (kept ++ rest.filter (·.active seen)) after.offset [] ∧
      after.offset + (rest.filter (·.active seen)).length = s.offset + rest.length ∧
      after.calls = s.calls ++ rest.map (·.call seen) := by
  induction rest generalizing s kept with
  | nil => exact ⟨s, rfl, by simpa using layout, rfl, by simp⟩
  | cons ctr rest ih =>
    obtain ⟨t, visited, called, offset, layout⟩ := visit_layout seen layout
    obtain ⟨after, run, last, number, calls⟩ := ih layout
    have split : (ctr :: rest).filter (·.active seen) =
        [ctr].filter (·.active seen) ++ rest.filter (·.active seen) := by
      rw [← filter_append, singleton_append]
    have place : (kept ++ [ctr].filter (·.active seen)).length + t.offset + 1 = kept.length + s.offset + 1 + 1 := by
      rw [length_append]
      omega
    refine ⟨after, ?_, ?_, ?_, ?_⟩
    · rw [length_cons, range'_succ, foldlM_cons, visited, Option.bind_eq_bind, Option.bind_some, ← run, place]
    · rwa [split, ← append_assoc]
    · rw [split, length_append, length_cons]
      omega
    · rw [calls, called, append_assoc, map_cons, singleton_append]

/-- What a round does to the thread. -/
theorem StatsThread.Follows.round {s : StatsThread φ} {counters : List (DeviceCounter φ)}
    {before : List (ZeroObservation φ)} (follows : s.Follows counters before) (busy : 0 < s.len)
    (now : ZeroObservation φ) : ∃ t, s.round now = some t ∧ t.Follows counters (before ++ [now]) := by
  obtain ⟨after, run, layout, number, calls⟩ := @StatsRound.visits _ now
    { counters := s.counters, offset := 0, calls := [] } [] _ (Compacting.start follows.slots)
  rw [← follows.len] at run number
  rw [nil_append] at calls
  refine ⟨{ counters := after.counters, len := s.len - after.offset, log := s.log ++ [after.calls] }, ?_, ?_⟩
  · rw [StatsThread.round]
    simp only [length_nil, Nat.zero_add] at run
    rw [run]
    rfl
  · constructor
    · simp only [Nat.zero_add] at number
      simp only [activeThrough_concat]
      omega
    · intro k
      rw [activeThrough_concat]
      exact layout.finish k
    · intro _
      rw [length_append, length_append, follows.number busy, length_singleton, length_singleton]
    · intro r
      rw [roundCalls_concat, ← follows.number busy, ← calls, ← follows.calls r]
      simp only [getD_eq_getElem?_getD]
      split
      · rename_i last
        rw [last, getElem?_concat_length, Option.getD_some]
      · rename_i other
        rcases Nat.lt_or_gt_of_ne other with earlier | beyond
        · rw [getElem?_append_left earlier]
        · rw [getElem?_eq_none (by simp; omega), getElem?_eq_none (by omega)]

/-- What is left of the loop, from the state after any number of rounds. -/
theorem StatsThread.Follows.rounds {s : StatsThread φ} {counters : List (DeviceCounter φ)}
    {before : List (ZeroObservation φ)} (follows : s.Follows counters before) (later : List (ZeroObservation φ)) :
    ∃ t, s.rounds later = some t ∧ t.Follows counters (before ++ later) := by
  induction later generalizing s before with
  | nil => exact ⟨s, rfl, by rwa [append_nil]⟩
  | cons now later ih =>
    rw [StatsThread.rounds]
    split
    · rename_i busy
      obtain ⟨t, round, next⟩ := follows.round busy now
      obtain ⟨u, rest, last⟩ := ih next
      exact ⟨u, by rw [round, Option.bind_some, rest], by rwa [append_assoc] at last⟩
    · rename_i idle
      have gone : activeThrough counters before = [] := eq_nil_of_length_eq_zero (by rw [← follows.len]; omega)
      have still : activeThrough counters (before ++ now :: later) = [] := by
        rw [activeThrough_append, gone, filter_nil]
      refine ⟨s, rfl, ⟨?_, ?_, fun busy => absurd busy idle, ?_⟩⟩
      · rw [follows.len, gone, still]
      · intro k
        rw [follows.slots, gone, still]
      · intro r
        rw [roundCalls_append gone]
        exact follows.calls r

theorem deviceCounters_distinct (tx rx : List (List φ)) : ((deviceCounters tx rx).map DeviceCounter.counter).Nodup := by
  have ids : (deviceCounters tx rx).map DeviceCounter.counter = List.range (tx ++ rx).length := by
    refine ext_getElem (by simp [deviceCounters]) fun i _ _ => ?_
    simp [deviceCounters]
  rw [ids]
  exact nodup_range

theorem finalize_mem_roundCalls {counters : List (DeviceCounter φ)} {ctr : DeviceCounter φ}
    (distinct : (counters.map DeviceCounter.counter).Nodup) (member : ctr ∈ counters)
    (seen : List (ZeroObservation φ)) (r : Nat) :
    .finalize ctr.counter ∈ roundCalls counters seen r ↔ seen.findIdx? (fun o => !ctr.active o) = some r := by
  rw [mem_roundCalls distinct member r _ rfl, findIdx?_eq_some_iff_getElem]
  simp only [DeviceCounter.finalize_eq_call, Option.mem_def, List.getElem?_eq_some_iff, mem_take_iff_getElem]
  constructor
  · rintro ⟨now, ⟨inside, rfl⟩, active, inactive⟩
    refine ⟨inside, by rw [inactive]; rfl, fun j earlier => ?_⟩
    rw [active _ ⟨j, by omega, rfl⟩]
    decide
  · rintro ⟨inside, inactive, active⟩
    refine ⟨_, ⟨inside, rfl⟩, ?_, by simpa using inactive⟩
    rintro o ⟨j, bound, rfl⟩
    simpa using active j (by omega)

theorem update_notMem_roundCalls {counters : List (DeviceCounter φ)} {ctr : DeviceCounter φ}
    (distinct : (counters.map DeviceCounter.counter).Nodup) (member : ctr ∈ counters)
    {seen : List (ZeroObservation φ)} {first r : Nat} (order : first ≤ r)
    (found : seen.findIdx? (fun o => !ctr.active o) = some first) :
    .update ctr.counter ∉ roundCalls counters seen r := by
  rw [mem_roundCalls distinct member r _ rfl]
  rintro ⟨now, at_r, active, called⟩
  obtain ⟨inside, inactive, -⟩ := findIdx?_eq_some_iff_getElem.mp found
  have there : ctr.active seen[first] = true := by
    rcases Nat.lt_or_eq_of_le order with earlier | rfl
    · exact active _ (mem_take_iff_getElem.mpr ⟨first, by omega, rfl⟩)
    · rw [Option.mem_def, getElem?_eq_getElem inside, Option.some_inj] at at_r
      rw [at_r]
      exact DeviceCounter.update_eq_call.mp called
  rw [there] at inactive
  cases inactive

/-- After any rounds the table holds the counters that were active in all of them, in their
order. A counter is finalized in the first round that finds it inactive, and at no other
time, and from then on it is not updated. -/
theorem deviceStatsThread_compacts (tx rx : List (List φ)) (seen : List (ZeroObservation φ)) :
    ∃ s, deviceStatsThread tx rx seen = some s ∧
      s.len = (activeThrough (deviceCounters tx rx) seen).length ∧
      (∀ k < s.len, s.counters (k + 1) = (activeThrough (deviceCounters tx rx) seen)[k]?) ∧
      (∀ k, s.len < k → s.counters k = none) ∧
      ∀ ctr ∈ deviceCounters tx rx,
        (∀ r, (s.log.getD r []).count (.finalize ctr.counter) =
          if seen.findIdx? (fun o => !ctr.active o) = some r then 1 else 0) ∧
        ∀ first, seen.findIdx? (fun o => !ctr.active o) = some first →
          ∀ r, first ≤ r → .update ctr.counter ∉ s.log.getD r [] := by
  have distinct := deviceCounters_distinct tx rx
  generalize counts : deviceCounters tx rx = counters at distinct
  have start : StatsThread.Follows {
      counters := fun i => if i = 0 then none else counters[i - 1]?
      len := counters.length
      log := [] } counters [] := by
    have all : activeThrough counters [] = counters := filter_true counters
    exact ⟨by rw [all], fun k => by rw [all]; rfl, fun _ => rfl, fun r => by simp [roundCalls]⟩
  obtain ⟨s, run, follows⟩ := start.rounds seen
  rw [nil_append] at follows
  refine ⟨s, ?_, follows.len, fun k _ => follows.slots k, ?_, ?_⟩
  · rw [deviceStatsThread, counts]
    exact run
  · intro k beyond
    obtain ⟨k, rfl⟩ : ∃ j, k = j + 1 := ⟨k - 1, by omega⟩
    rw [follows.slots k, getElem?_eq_none (by rw [← follows.len]; omega)]
  · intro ctr member
    refine ⟨fun r => ?_, fun first found r order => ?_⟩
    · rw [follows.calls r]
      split
      · rename_i found
        exact count_eq_one_of_mem (roundCalls_nodup distinct r)
          ((finalize_mem_roundCalls distinct member seen r).mpr found)
      · rename_i other
        exact count_eq_zero.mpr fun called => other ((finalize_mem_roundCalls distinct member seen r).mp called)
    · rw [follows.calls r]
      exact update_notMem_roundCalls distinct member order found

end MoonGen
