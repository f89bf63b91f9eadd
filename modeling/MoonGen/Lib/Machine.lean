import Mathlib.Data.List.Basic

universe u v w

/-- A machine that takes one action after another: where it starts, which
actions it may take in a state, and where an action leads. -/
structure Machine (σ : Type u) (α : Type v) where
  start : σ → Prop
  enabled : σ → α → Prop
  next : σ → α → σ

namespace Machine

variable {σ : Type u} {α : Type v}

inductive Reach (m : Machine σ α) : σ → Prop
  | start {s} : m.start s → Reach m s
  | step {s a} : Reach m s → m.enabled s a → Reach m (m.next s a)

theorem Reach.invariant {m : Machine σ α} {I : σ → Prop} (init : ∀ s, m.start s → I s)
    (kept : ∀ s a, I s → m.enabled s a → I (m.next s a)) {s : σ} (reach : m.Reach s) : I s := by
  induction reach with
  | start first => exact init _ first
  | step _ able ih => exact kept _ _ ih able

/-- The runs in which every step meets a further condition. -/
def guarded (m : Machine σ α) (guard : σ → α → Prop) : Machine σ α :=
  { m with enabled := fun s a => m.enabled s a ∧ guard s a }

instance (m : Machine σ α) (guard : σ → α → Prop) [∀ s a, Decidable (m.enabled s a)] [∀ s a, Decidable (guard s a)]
    (s : σ) (a : α) : Decidable ((m.guarded guard).enabled s a) :=
  inferInstanceAs (Decidable (m.enabled s a ∧ guard s a))

/-- Whether a list of actions can be taken from a state and leads to one that
passes the test. -/
def leadsTo (m : Machine σ α) [∀ s a, Decidable (m.enabled s a)] (test : σ → Bool) : σ → List α → Bool
  | s, [] => test s
  | s, a :: actions => decide (m.enabled s a) && leadsTo m test (m.next s a) actions

theorem reach_of_leadsTo {m : Machine σ α} [∀ s a, Decidable (m.enabled s a)] {test : σ → Bool} {s : σ}
    {actions : List α} (run : m.leadsTo test s actions = true) (reach : m.Reach s) :
    ∃ after, m.Reach after ∧ test after = true := by
  induction actions generalizing s with
  | nil => exact ⟨s, reach, run⟩
  | cons a actions ih =>
    simp only [leadsTo, Bool.and_eq_true, decide_eq_true_eq] at run
    exact ih run.2 (.step reach run.1)

/-- The machine together with a log of what its actions show. -/
def logged {ε : Type w} (m : Machine σ α) (event : σ → α → Option ε) : Machine (σ × List ε) α where
  start s := m.start s.1 ∧ s.2 = []
  enabled s a := m.enabled s.1 a
  next s a := (m.next s.1 a, s.2 ++ (event s.1 a).toList)

instance {ε : Type w} (m : Machine σ α) (event : σ → α → Option ε) [∀ s a, Decidable (m.enabled s a)]
    (s : σ × List ε) (a : α) : Decidable ((m.logged event).enabled s a) :=
  inferInstanceAs (Decidable (m.enabled s.1 a))

end Machine

namespace Component

variable {σ : Type u} {τ : Type v} {ι ω : Type w}

/-- What a component answers to one call after another. It ends in `none` when a
call has no defined outcome. -/
def answers (call : σ → ι → Option (ω × σ)) : σ → List ι → Option (List ω)
  | _, [] => some []
  | s, c :: calls => (call s c).bind fun (answer, s) => (answers call s calls).map (answer :: ·)

/-- Two components answer alike when a relation between their states survives
every call and the calls' answers agree under it. -/
theorem answers_eq {call : σ → ι → Option (ω × σ)} {call' : τ → ι → Option (ω × τ)} {R : σ → τ → Prop}
    (alike : ∀ s t c, R s t → Option.Rel (fun x y => x.1 = y.1 ∧ R x.2 y.2) (call s c) (call' t c))
    {s : σ} {t : τ} (related : R s t) (calls : List ι) : answers call s calls = answers call' t calls := by
  induction calls generalizing s t with
  | nil => rfl
  | cons c calls ih =>
    rw [answers, answers]
    generalize left : call s c = x
    generalize right : call' t c = y
    have pair := alike s t c related
    rw [left, right] at pair
    cases pair with
    | none => rfl
    | some both =>
      obtain ⟨same, related⟩ := both
      simp only [Option.bind_some, same, ih related]

section Along

variable {ε : Type v} (step : σ → ι → Except ε σ)

/-- A condition on each call of a run, which is on the state before the call and on what
comes of it. A call that fails is the last one. -/
def Along (P : σ → ι → Except ε σ → Prop) : σ → List ι → Prop
  | _, [] => True
  | s, c :: calls =>
    P s c (step s c) ∧
      match step s c with
      | .ok t => Along P t calls
      | .error _ => True

instance Along.decidable (P : σ → ι → Except ε σ → Prop) [∀ s c out, Decidable (P s c out)] :
    ∀ s calls, Decidable (Along step P s calls)
  | _, [] => isTrue trivial
  | s, c :: calls =>
    have : Decidable (match step s c with
        | .ok t => Along step P t calls
        | .error _ => True) :=
      match step s c with
      | .ok t => Along.decidable P t calls
      | .error _ => isTrue trivial
    inferInstanceAs (Decidable (_ ∧ _))

variable {step}

/-- On runs that are allowed, two conditions say the same when they do so for every single
call that keeps to an invariant, and the invariant is kept where they hold. -/
theorem along_iff {I : σ → Prop} {A P Q : σ → ι → Except ε σ → Prop} (call : ∀ s c, I s → A s c (step s c) →
      (P s c (step s c) ↔ Q s c (step s c)) ∧ (Q s c (step s c) → ∀ t, step s c = .ok t → I t))
    {s : σ} {calls : List ι} (first : I s) (allowed : Along step A s calls) :
    Along step P s calls ↔ Along step Q s calls := by
  induction calls generalizing s with
  | nil => rfl
  | cons c calls ih =>
    obtain ⟨now, later⟩ := allowed
    obtain ⟨same, kept⟩ := call s c first now
    rw [Along, Along, same]
    refine and_congr_right fun holds => ?_
    cases out : step s c with
    | error e => rfl
    | ok t =>
      rw [out] at later
      exact ih (kept holds t out) later

theorem along_of_invariant {I : σ → Prop} {P : σ → ι → Except ε σ → Prop}
    (call : ∀ s c, I s → P s c (step s c) ∧ ∀ t, step s c = .ok t → I t) {s : σ} (first : I s) (calls : List ι) :
    Along step P s calls := by
  induction calls generalizing s with
  | nil => trivial
  | cons c calls ih =>
    obtain ⟨now, kept⟩ := call s c first
    refine ⟨now, ?_⟩
    cases out : step s c with
    | error e => trivial
    | ok t => exact ih (kept t out)

/-- The call does not fail, and leads to a state with a property. -/
def Yields (P : σ → Prop) : Except ε σ → Prop
  | .ok t => P t
  | .error _ => False

instance Yields.decidable (P : σ → Prop) [DecidablePred P] : ∀ out : Except ε σ, Decidable (Yields P out)
  | .ok t => inferInstanceAs (Decidable (P t))
  | .error _ => isFalse id

/-- A property holds after every call of a run exactly when each call meets a condition on the
calls before it, if this is so for every single call whose predecessors met it. -/
theorem along_yields_iff {I : List ι → σ → Prop} {P : σ → Prop} {Q : List ι → ι → Prop}
    (call : ∀ before s c, I before s →
      (Yields P (step s c) ↔ Q before c) ∧ (Q before c → Yields (I (before ++ [c])) (step s c)))
    {before : List ι} {s : σ} {calls : List ι} (first : I before s) :
    Along step (fun _ _ out => Yields P out) s calls ↔
      ∀ done c later, calls = done ++ c :: later → Q (before ++ done) c := by
  induction calls generalizing before s with
  | nil => exact iff_of_true trivial fun done c later same => absurd same.symm (by simp)
  | cons c calls ih =>
    obtain ⟨same, kept⟩ := call before s c first
    rw [Along]
    constructor
    · rintro ⟨now, later⟩ done c' rest whole
      cases done with
      | nil =>
        cases whole
        simpa using same.mp now
      | cons d done =>
        cases whole
        have next := kept (same.mp now)
        cases out : step s c with
        | error e =>
          rw [out] at now
          exact now.elim
        | ok t =>
          rw [out] at next later
          simpa using (ih next).mp later done c' rest rfl
    · intro each
      have now : Q before c := by simpa using each [] c calls rfl
      refine ⟨same.mpr now, ?_⟩
      have next := kept now
      cases out : step s c with
      | error e => trivial
      | ok t =>
        rw [out] at next
        refine (ih next).mpr fun done c' rest whole => ?_
        simpa using each (c :: done) c' rest (by rw [whole, List.cons_append])

/-- Where each call of a run meets the condition on the calls before it, the run does not fail. -/
theorem yields_foldlM {I : List ι → σ → Prop} {Q : List ι → ι → Prop}
    (call : ∀ before s c, I before s → Q before c → Yields (I (before ++ [c])) (step s c))
    {before : List ι} {s : σ} {calls : List ι} (first : I before s)
    (each : ∀ done c later, calls = done ++ c :: later → Q (before ++ done) c) :
    Yields (I (before ++ calls)) (calls.foldlM step s) := by
  induction calls generalizing before s with
  | nil =>
    rw [List.append_nil]
    exact first
  | cons c calls ih =>
    have next := call before s c first (by simpa using each [] c calls rfl)
    rw [List.foldlM_cons]
    cases out : step s c with
    | error e =>
      rw [out] at next
      exact next.elim
    | ok t =>
      rw [out] at next
      have rest := ih next fun done c' later whole => by
        simpa using each (c :: done) c' later (by rw [whole, List.cons_append])
      rwa [List.append_assoc, List.singleton_append] at rest

end Along

end Component
