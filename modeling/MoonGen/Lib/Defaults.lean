import Mathlib.Logic.Function.Basic

universe u v

namespace Defaults

open Function Option

variable {K : Type u} {V : Type v} (counts : V → Bool)

/-- There is a value, and it counts. -/
def Given (old : Option V) : Prop := ∃ x, old = some x ∧ counts x = true

instance (old : Option V) : Decidable (Given counts old) :=
  match old with
  | none => isFalse nofun
  | some x => decidable_of_iff (counts x = true) ⟨fun h => ⟨x, rfl, h⟩, fun ⟨_, same, h⟩ => Option.some.inj same ▸ h⟩

/-- A write to a table: of a default where no value counts, or of a value in any case. A
default can be missing, or fail when it is evaluated. -/
inductive Write (K : Type u) {V : Type v} (counts : V → Bool)
  | unset (key : K) (value : Option (Option V))
  | always (key : K) (value : V) (given : counts value = true)

variable {counts}

namespace Write

def key : Write K counts → K
  | unset key _ => key
  | always key _ _ => key

/-- What a write makes of the value of its key. -/
def leaves : Write K counts → Option V → Option V
  | unset _ value, old => if Given counts old then old else (value.getD none).or old
  | always _ value _, _ => some value

/-- The write does not fail. -/
def Evaluates : Write K counts → Option V → Prop
  | unset _ value, old => Given counts old ∨ value.isSome
  | always .., _ => True

instance (w : Write K counts) (old : Option V) : Decidable (w.Evaluates old) :=
  match w with
  | unset .. => inferInstanceAs (Decidable (_ ∨ _))
  | always .. => isTrue trivial

theorem given_leaves (w : Write K counts) {old : Option V} (given : Given counts old) :
    Given counts (w.leaves old) := by
  cases w with
  | unset key value => rwa [leaves, if_pos given]
  | always key value counts => exact ⟨value, rfl, counts⟩

theorem given_leaves_of_imp (w : Write K counts) {old new : Option V} (more : Given counts old → Given counts new)
    (given : Given counts (w.leaves old)) : Given counts (w.leaves new) := by
  by_cases before : Given counts old
  · exact w.given_leaves (more before)
  by_cases after : Given counts new
  · exact w.given_leaves after
  cases w with
  | always key value counts => exact ⟨value, rfl, counts⟩
  | unset key value =>
    rw [leaves, if_neg before] at given
    rw [leaves, if_neg after]
    -- The default is there, as the old value does not count.
    cases default : value.getD none with
    | none =>
      rw [default] at given
      exact absurd given before
    | some x => rwa [default] at given

theorem Evaluates.of_imp {w : Write K counts} {old new : Option V} (evaluates : w.Evaluates old)
    (more : Given counts old → Given counts new) : w.Evaluates new := by
  cases w with
  | always => trivial
  | unset key value => exact evaluates.imp more id

end Write

variable [DecidableEq K] {t t' : K → Option V}

/-- The table behind a write that does not fail. -/
def Write.apply (w : Write K counts) (t : K → Option V) : K → Option V :=
  update t w.key (w.leaves (t w.key))

def Write.run (w : Write K counts) (t : K → Option V) : Option (K → Option V) :=
  if w.Evaluates (t w.key) then some (w.apply t) else none

/-- One write after the other. -/
def runAll : List (Write K counts) → (K → Option V) → Option (K → Option V)
  | [], t => some t
  | w :: ws, t => (w.run t).bind (runAll ws)

/-- The table that writes leave. -/
def settle : List (Write K counts) → (K → Option V) → K → Option V
  | [], t => t
  | w :: ws, t => settle ws (w.apply t)

variable (counts) in
/-- Where a value counts in the first table, one counts in the second. -/
def Covers (t t' : K → Option V) : Prop := ∀ k, Given counts (t k) → Given counts (t' k)

theorem covers_apply (w : Write K counts) (t : K → Option V) : Covers counts t (w.apply t) := by
  intro k given
  rw [Write.apply]
  by_cases here : k = w.key
  · rw [here, update_self]
    exact w.given_leaves (here ▸ given)
  · rwa [update_of_ne here]

theorem Covers.apply (covers : Covers counts t t') (w : Write K counts) : Covers counts (w.apply t) (w.apply t') := by
  intro k
  rw [Write.apply, Write.apply]
  by_cases here : k = w.key
  · rw [here, update_self, update_self]
    exact w.given_leaves_of_imp (covers w.key)
  · rw [update_of_ne here, update_of_ne here]
    exact covers k

theorem covers_settle (ws : List (Write K counts)) (t : K → Option V) : Covers counts t (settle ws t) := by
  induction ws generalizing t with
  | nil => exact fun _ given => given
  | cons w ws ih => exact fun k given => ih (w.apply t) k (covers_apply w t k given)

theorem Covers.settle (covers : Covers counts t t') (ws : List (Write K counts)) :
    Covers counts (settle ws t) (settle ws t') := by
  induction ws generalizing t t' with
  | nil => exact covers
  | cons w ws ih => exact ih (covers.apply w)

variable {ws : List (Write K counts)}

/-- Writes that do not fail do not fail either where more values count. -/
theorem Covers.runAll (covers : Covers counts t t') {u : K → Option V}
    (run : runAll ws t = some u) : Defaults.runAll ws t' = some (Defaults.settle ws t') := by
  induction ws generalizing t t' with
  | nil => rfl
  | cons w ws ih =>
    obtain ⟨t₁, first, rest⟩ := bind_eq_some_iff.mp run
    obtain ⟨evaluates, same⟩ := ite_none_right_eq_some.mp first
    obtain rfl := Option.some.inj same
    rw [Defaults.runAll, Write.run, if_pos (evaluates.of_imp (covers w.key)), bind_some, ih (covers.apply w) rest]
    rfl

theorem eq_settle_of_runAll {u : K → Option V} (run : runAll ws t = some u) : u = settle ws t :=
  Option.some.inj (run.symm.trans (Covers.runAll (fun _ given => given) run))

theorem runAll_of_evaluates (evaluates : ∀ w ∈ ws, ∀ old, w.Evaluates old)
    (t : K → Option V) : runAll ws t = some (settle ws t) := by
  induction ws generalizing t with
  | nil => rfl
  | cons w ws ih =>
    obtain ⟨first, later⟩ := List.forall_mem_cons.mp evaluates
    rw [runAll, Write.run, if_pos (first _), bind_some, ih later]
    rfl

theorem settle_append (ws vs : List (Write K counts)) (t : K → Option V) :
    settle (ws ++ vs) t = settle vs (settle ws t) := by
  induction ws generalizing t with
  | nil => rfl
  | cons w ws ih => exact ih (w.apply t)

/-- A key keeps its value if each write to it leaves the value as it is. -/
theorem settle_of_leaves {k : K} (t : K → Option V)
    (same : ∀ w ∈ ws, w.key = k → w.leaves (t k) = t k) : settle ws t k = t k := by
  induction ws generalizing t with
  | nil => rfl
  | cons w ws ih =>
    obtain ⟨first, later⟩ := List.forall_mem_cons.mp same
    have kept : w.apply t k = t k := by
      rw [Write.apply]
      by_cases here : k = w.key
      · rw [here, update_self]
        exact here ▸ first here.symm
      · rw [update_of_ne here]
    rw [settle, ih _ (kept ▸ later), kept]

/-- What is left at a key depends on what was there. -/
theorem settle_congr (ws : List (Write K counts)) {k : K} (same : t k = t' k) : settle ws t k = settle ws t' k := by
  induction ws generalizing t t' with
  | nil => exact same
  | cons w ws ih =>
    refine ih ?_
    rw [Write.apply, Write.apply]
    by_cases here : k = w.key
    · rw [here, update_self, update_self, ← here, same]
    · rw [update_of_ne here, update_of_ne here, same]

/-- The value that a write has for a key at which none counts. -/
def Write.offers (w : Write K counts) (k : K) : Option V :=
  match w with
  | unset key value => if key = k then value.getD none else none
  | always key value _ => if key = k then some value else none

/-- The first value that some writes have for a key. -/
def firstOffer (ws : List (Write K counts)) (k : K) : Option V := ws.findSome? (·.offers k)

/-- A write does not replace a value of a key. -/
def Write.Yields (w : Write K counts) (k : K) : Prop :=
  match w with
  | unset .. => True
  | always key .. => key ≠ k

instance (w : Write K counts) (k : K) : Decidable (w.Yields k) :=
  match w with
  | .unset .. => isTrue trivial
  | .always key .. => inferInstanceAs (Decidable (key ≠ k))

theorem settle_of_given {k : K} (yields : ∀ w ∈ ws, w.Yields k)
    (given : Given counts (t k)) : settle ws t k = t k := by
  refine settle_of_leaves t fun w member here => ?_
  cases w with
  | unset key value => rw [Write.leaves, if_pos given]
  | always key value counts => exact absurd here (yields _ member)

theorem settle_of_firstOffer {k : K} (yields : ∀ w ∈ ws, w.Yields k)
    (missing : ¬Given counts (t k)) (counted : ∀ v ∈ firstOffer ws k, counts v = true) :
    settle ws t k = (firstOffer ws k).or (t k) := by
  induction ws generalizing t with
  | nil => rfl
  | cons w ws ih =>
    obtain ⟨first, later⟩ := List.forall_mem_cons.mp yields
    have written : w.apply t k = (w.offers k).or (t k) := by
      rw [Write.apply]
      cases w with
      | always key value counts =>
        rw [Write.key, update_of_ne (Ne.symm first), Write.offers, if_neg first, none_or]
      | unset key value =>
        by_cases here : key = k
        · rw [Write.key, here, update_self, Write.leaves, if_neg missing, Write.offers, if_pos rfl]
        · rw [Write.key, update_of_ne (Ne.symm here), Write.offers, if_neg here, none_or]
    rw [firstOffer, List.findSome?_cons] at counted ⊢
    cases offer : w.offers k with
    | none =>
      rw [offer] at written counted
      have kept : w.apply t k = t k := written.trans (none_or ..)
      rw [settle, ih later (kept ▸ missing) counted, kept]
      rfl
    | some v =>
      rw [offer] at written counted
      have stored : w.apply t k = some v := written.trans (some_or ..)
      rw [settle, settle_of_given later (stored ▸ ⟨v, rfl, counted v rfl⟩), stored]
      rfl

/-- Behind a write in any case it does not matter what was there. -/
theorem settle_of_not_yields {k : K} (replaced : ∃ w ∈ ws, ¬w.Yields k) : settle ws t k = settle ws t' k := by
  induction ws generalizing t t' with
  | nil =>
    obtain ⟨w, member, _⟩ := replaced
    cases member
  | cons w ws ih =>
    by_cases yields : w.Yields k
    · refine ih ?_
      obtain ⟨v, member, other⟩ := replaced
      rcases List.mem_cons.mp member with rfl | later
      · exact absurd yields other
      · exact ⟨v, later, other⟩
    · refine settle_congr ws ?_
      cases w with
      | unset => exact absurd trivial yields
      | always key value counts =>
        obtain rfl : key = k := not_not.mp yields
        rw [Write.apply, Write.apply, Write.key, update_self, update_self]
        rfl

variable (counts) in
/-- The writes after some others make the same of a key as without them, where it had an
old value: they replace it in any case, or it is not replaced and there was a value, or the
writes before have none to offer, or the same one. -/
def Alike (before after : List (Write K counts)) (old : Option V) (k : K) : Prop :=
  (∃ w ∈ after, ¬w.Yields k) ∨
    (∀ w ∈ before, w.Yields k) ∧ (Given counts old ∨ firstOffer before k = none ∨
      Given counts (firstOffer before k) ∧ firstOffer before k = firstOffer after k)

instance [DecidableEq V] (before after : List (Write K counts)) (old : Option V) (k : K) :
    Decidable (Alike counts before after old k) :=
  inferInstanceAs (Decidable (_ ∨ _ ∧ (_ ∨ _ ∨ _ ∧ _)))

theorem Alike.settle_settle {before after : List (Write K counts)} {k : K} (alike : Alike counts before after (t k) k) :
    settle after (settle before t) k = settle after t k := by
  rcases alike with replaced | ⟨yields, offers⟩
  · exact settle_of_not_yields replaced
  by_cases given : Given counts (t k)
  · exact settle_congr after (settle_of_given yields given)
  rcases offers with there | missing | ⟨⟨v, offered, counted⟩, same⟩
  · exact absurd there given
  · refine settle_congr after ?_
    rw [settle_of_firstOffer yields given (by simp [missing]), missing, none_or]
  by_cases later : ∀ w ∈ after, w.Yields k
  · have stored : settle before t k = some v := by
      rw [settle_of_firstOffer yields given (by simp [offered, counted]), offered, some_or]
    rw [settle_of_given later (stored ▸ ⟨v, rfl, counted⟩), stored,
      settle_of_firstOffer later given (by simp [← same, offered, counted]), ← same, offered, some_or]
  · exact settle_of_not_yields (by simpa using later)

end Defaults
