import Mathlib.Data.List.Basic
import MoonGen.Lib.LuaVarargs

namespace MoonGen

open LuaVarargs
open List

variable {V : Type*} (truthy : V → Bool)

/-- `LJ_MAX_SLOTS` -/
def maxSlots : Nat := 250

/-- The generated function holds the table and all values that it returns in slots. With too
many of them `loadstring` returns `nil`, which is called. -/
def unpackAll (tbl : List (Nat × V)) : Except String (List (Option V)) :=
  if maxSlots ≤ 1 + maxn tbl then .error "attempt to call a nil value" else .ok (unpack (maxn tbl) tbl)

/-- A pipe with its reader, which calls `recv` again and again: the messages in the queue as the
tables they stand for, the time that the present `tryRecv` still waits, and what all calls
returned or raised. -/
structure SlowPipe (V : Type*) where
  queue : List (List (Nat × V)) := []
  wait : Int := 10
  received : List (Except String (List (Option V))) := []

/-- The steps of the writers and the reader, in any order. -/
inductive PipeAction (V : Type*)
  | send (values : List (Option V))
  | poll

namespace SlowPipe

def send (s : SlowPipe V) (values : List (Option V)) : SlowPipe V := { s with queue := s.queue ++ [table values] }

/-- A round of the loop in `tryRecv`: what it returns or raises, or the time left to wait. The
message is out of the queue before it is unpacked. -/
def tryRecvRound (wait : Int) :
    List (List (Nat × V)) → (Except String (List (Option V)) ⊕ Int) × List (List (Nat × V))
  | buf :: queue => (.inl (unpackAll buf), queue)
  | [] =>
    let wait := wait - 10
    if wait < 0 then (.inl (.ok []), []) else (.inr wait, [])

/-- Whether the first of some values counts as true. No value counts as `nil`. -/
def firstTruthy (values : List (Option V)) : Bool :=
  match values with
  | some v :: _ => truthy v
  | _ => false

/-- A round of `tryRecv`, and the loop in `recv` when it returns. -/
def poll (s : SlowPipe V) : SlowPipe V :=
  match tryRecvRound s.wait s.queue with
  | (.inr wait, queue) => { s with queue, wait }
  | (.inl (.error message), queue) => { queue, wait := 10, received := s.received ++ [.error message] }
  | (.inl (.ok values), queue) =>
    if !firstTruthy truthy values then { s with queue, wait := 10 }
    else { queue, wait := 10, received := s.received ++ [.ok values] }

def step (s : SlowPipe V) : PipeAction V → SlowPipe V
  | .send values => s.send values
  | .poll => s.poll truthy

def run (actions : List (PipeAction V)) : SlowPipe V := actions.foldl (step truthy) {}

end SlowPipe

/-- The values of each message, in the order of the queue. -/
def sentValues (actions : List (PipeAction V)) : List (List (Option V)) :=
  actions.filterMap fun
    | .send values => some values
    | .poll => none

/-- What `recv` makes of a message. -/
def delivered (values : List (Option V)) : Option (Except String (List (Option V))) :=
  if maxSlots ≤ 1 + (values.rdropWhile Option.isNone).length then some (.error "attempt to call a nil value")
  else if SlowPipe.firstTruthy truthy (values.rdropWhile Option.isNone) then
    some (.ok (values.rdropWhile Option.isNone))
  else none

namespace SlowPipe

/-- The messages so far are those that the reader took and those in the queue. -/
structure Passed (s : SlowPipe V) (taken rest : List (List (Option V))) : Prop where
  queue : s.queue = rest.map table
  received : s.received = taken.filterMap (delivered truthy)

variable {truthy} {s : SlowPipe V} {taken rest : List (List (Option V))}

theorem Passed.send (passed : s.Passed truthy taken rest) (values : List (Option V)) :
    (s.send values).Passed truthy taken (rest ++ [values]) :=
  ⟨by rw [SlowPipe.send, passed.queue, map_append, map_singleton], passed.received⟩

theorem Passed.poll_empty (passed : s.Passed truthy taken []) : (s.poll truthy).Passed truthy taken [] := by
  have empty : s.queue = [] := passed.queue
  rw [poll, empty, tryRecvRound]
  by_cases late : s.wait - 10 < 0
  · simp only [if_pos late, firstTruthy, Bool.not_false, if_true]
    exact ⟨rfl, passed.received⟩
  · simp only [if_neg late]
    exact ⟨rfl, passed.received⟩

theorem Passed.poll_message {values : List (Option V)} (passed : s.Passed truthy taken (values :: rest)) :
    (s.poll truthy).Passed truthy (taken ++ [values]) rest := by
  have first : s.queue = table values :: rest.map table := passed.queue
  have out : unpackAll (table values) =
      if maxSlots ≤ 1 + (values.rdropWhile Option.isNone).length then .error "attempt to call a nil value"
      else .ok (values.rdropWhile Option.isNone) := by
    rw [unpackAll, unpack_table, maxn_table]
  rw [poll, first, tryRecvRound, out]
  have taken_next : (taken ++ [values]).filterMap (delivered truthy) = s.received ++ (delivered truthy values).toList := by
    rw [filterMap_append, ← passed.received, filterMap_cons]
    cases delivered truthy values <;> rfl
  by_cases long : maxSlots ≤ 1 + (values.rdropWhile Option.isNone).length
  · rw [if_pos long]
    refine ⟨rfl, ?_⟩
    rw [taken_next, delivered, if_pos long]
    rfl
  · rw [if_neg long]
    cases truth : firstTruthy truthy (values.rdropWhile Option.isNone) with
    | false =>
      refine ⟨by simp [truth], ?_⟩
      rw [taken_next, delivered, if_neg long]
      simp [truth]
    | true =>
      refine ⟨by simp [truth], ?_⟩
      rw [taken_next, delivered, if_neg long]
      simp [truth]

/-- A step passes a message on or adds one, and loses none from sight. -/
theorem Passed.step (passed : s.Passed truthy taken rest) (action : PipeAction V) :
    ∃ taken' rest', (s.step truthy action).Passed truthy taken' rest' ∧
      taken' ++ rest' = taken ++ rest ++ sentValues [action] := by
  cases action with
  | send values => exact ⟨taken, rest ++ [values], passed.send values, (append_assoc ..).symm⟩
  | poll =>
    cases rest with
    | nil => exact ⟨taken, [], passed.poll_empty, (append_nil _).symm⟩
    | cons values rest => exact ⟨taken ++ [values], rest, passed.poll_message, by simp [sentValues]⟩

theorem Passed.run (passed : s.Passed truthy taken rest) (actions : List (PipeAction V)) :
    ∃ taken' rest', (actions.foldl (SlowPipe.step truthy) s).Passed truthy taken' rest' ∧
      taken' ++ rest' = taken ++ rest ++ sentValues actions := by
  induction actions generalizing s taken rest with
  | nil => exact ⟨taken, rest, passed, (append_nil _).symm⟩
  | cons action actions ih =>
    obtain ⟨taken', rest', next, all⟩ := passed.step action
    obtain ⟨taken'', rest'', last, all'⟩ := ih next
    have sent : sentValues (action :: actions) = sentValues [action] ++ sentValues actions := by
      rw [sentValues, sentValues, sentValues, ← filterMap_append, singleton_append]
    exact ⟨taken'', rest'', last, by rw [all', all, sent, append_assoc]⟩

/-- With nothing sent any more, each poll takes a message. -/
theorem Passed.polls (passed : s.Passed truthy taken rest) (polls : Nat) :
    ((List.replicate polls .poll).foldl (SlowPipe.step truthy) s).Passed truthy (taken ++ rest.take polls)
      (rest.drop polls) := by
  induction polls generalizing s taken rest with
  | zero => simpa using passed
  | succ polls ih =>
    rw [replicate_succ, foldl_cons, SlowPipe.step]
    cases rest with
    | nil => simpa using ih passed.poll_empty
    | cons values rest => simpa using ih passed.poll_message

end SlowPipe

theorem firstTruthy_iff {truthy : V → Bool} {values : List (Option V)} :
    SlowPipe.firstTruthy truthy values = true ↔ ∃ v, values.head? = some (some v) ∧ truthy v = true := by
  match values with
  | [] => simp [SlowPipe.firstTruthy]
  | none :: _ => simp [SlowPipe.firstTruthy]
  | some v :: _ => simp [SlowPipe.firstTruthy]

theorem delivered_eq_self_iff {truthy : V → Bool} {values : List (Option V)} :
    delivered truthy values = some (.ok values) ↔
      (∃ v, values.head? = some (some v) ∧ truthy v = true) ∧ values.getLast? ≠ some none ∧ values.length < 249 := by
  have whole : values.rdropWhile Option.isNone = values ↔ values.getLast? ≠ some none := by
    rw [rdropWhile_eq_self_iff]
    cases values using List.reverseRecOn with
    | nil => simp
    | append_singleton values v => cases v <;> simp
  rw [← firstTruthy_iff, ← whole, delivered, maxSlots]
  constructor
  · intro same
    split at same
    · cases same
    · rename_i short
      split at same
      · rename_i first
        have kept := Except.ok.inj (Option.some.inj same)
        rw [kept] at first short
        exact ⟨first, kept, by omega⟩
      · cases same
  · rintro ⟨first, same, short⟩
    rw [same, if_neg (by omega), if_pos first]

/-- The messages of a pipe are returned one by one and as they are, once the reader has polled
often enough, exactly when each has less than 249 values, of which the first one counts as true
and the last one is not `nil`. -/
theorem slowPipe_delivers_iff (truthy : V → Bool) (actions : List (PipeAction V)) :
    (∀ polls, (sentValues actions).length ≤ polls →
        (SlowPipe.run truthy (actions ++ List.replicate polls .poll)).received = (sentValues actions).map .ok) ↔
      ∀ values ∈ sentValues actions,
        (∃ v, values.head? = some (some v) ∧ truthy v = true) ∧ values.getLast? ≠ some none ∧ values.length < 249 := by
  have start : SlowPipe.Passed truthy {} [] [] := ⟨rfl, rfl⟩
  obtain ⟨taken, rest, passed, all⟩ := start.run actions
  have received : ∀ polls, (sentValues actions).length ≤ polls →
      (SlowPipe.run truthy (actions ++ List.replicate polls .poll)).received =
        (sentValues actions).filterMap (delivered truthy) := by
    intro polls enough
    have last := (passed.polls polls).received
    simp only [nil_append] at all
    rw [← all, length_append] at enough
    rw [take_of_length_le (by omega), all] at last
    rw [SlowPipe.run, foldl_append, last]
  simp only [← delivered_eq_self_iff, ← filterMap_eq_map_iff_forall_eq_some]
  constructor
  · intro same
    exact (received _ le_rfl).symm.trans (same _ le_rfl)
  · intro same polls enough
    exact (received polls enough).trans same

/-- Of the messages `(false, true)`, `()` and `(true, nil)`, the first two are thrown away and the
third one loses a value. A message of 249 values is lost with an error. -/
theorem slowPipe_drops :
    (SlowPipe.run id [.send [some false, some true], .poll, .send [], .send [some true, none], .poll, .poll,
      .poll]).received = [.ok [some true]] ∧
    (SlowPipe.run id [.send (List.replicate 249 (some true)), .poll]).received =
      [.error "attempt to call a nil value"] := by
  refine ⟨by decide, ?_⟩
  decide +kernel

end MoonGen
