import Mathlib.Data.Finset.Lattice.Fold
import MoonGen.Lib.Machine

universe u v

namespace Machine

variable {σ : Type u} {α : Type v} {m : Machine σ α}

/-- An infinite run of a machine. It may idle, so that a finite run is one that
idles in the end. -/
structure Run (m : Machine σ α) where
  state : Nat → σ
  act : Nat → Option α
  start : m.start (state 0)
  taken : ∀ t a, act t = some a → m.enabled (state t) a ∧ state (t + 1) = m.next (state t) a
  idle : ∀ t, act t = none → state (t + 1) = state t

namespace Run

theorem reach (r : m.Run) (t : Nat) : m.Reach (r.state t) := by
  induction t with
  | zero => exact .start r.start
  | succ t ih =>
    cases act : r.act t with
    | none =>
      rw [r.idle t act]
      exact ih
    | some a =>
      obtain ⟨able, next⟩ := r.taken t a act
      rw [next]
      exact .step ih able

/-- What the actions taken from some moment on keep, lasts from that moment on. -/
theorem lasts_of_taken (r : m.Run) {P : σ → Prop} {t u : Nat}
    (kept : ∀ v a, t ≤ v → r.act v = some a → P (r.state v) → P (m.next (r.state v) a)) (later : t ≤ u)
    (now : P (r.state t)) : P (r.state u) := by
  induction later with
  | refl => exact now
  | @step v later ih =>
    cases act : r.act v with
    | none =>
      rw [r.idle v act]
      exact ih
    | some a =>
      rw [(r.taken v a act).2]
      exact kept v a later act ih

theorem lasts (r : m.Run) {P : σ → Prop} (kept : ∀ s a, P s → m.enabled s a → P (m.next s a)) {t u : Nat}
    (later : t ≤ u) (now : P (r.state t)) : P (r.state u) :=
  r.lasts_of_taken (fun v a _ act holds => kept _ a holds (r.taken v a act).1) later now

/-- Facts that last and come true one by one are true together at some moment. -/
theorem eventually_all {ι : Type*} [Fintype ι] (r : m.Run) {P : ι → σ → Prop}
    (kept : ∀ i s a, P i s → m.enabled s a → P i (m.next s a)) (each : ∀ i, ∃ t, P i (r.state t)) :
    ∃ t, ∀ i, P i (r.state t) := by
  choose time true_at using each
  refine ⟨Finset.univ.sup time, fun i => ?_⟩
  exact r.lasts (kept i) (Finset.le_sup (Finset.mem_univ i)) (true_at i)

/-- Weak fairness: an action is taken at last when it is ready from some moment on. -/
def Fair (r : m.Run) (ready : σ → Prop) (a : α) : Prop :=
  ∀ t, (∀ u, t ≤ u → ready (r.state u)) → ∃ u, t ≤ u ∧ r.act u = some a

/-- An action that stays ready until it is taken does get taken, and is ready then. -/
theorem Fair.progress {r : m.Run} {ready : σ → Prop} {a : α} (fair : r.Fair ready a)
    (stays : ∀ s b, b ≠ a → ready s → m.enabled s b → ready (m.next s b)) {t : Nat} (now : ready (r.state t)) :
    ∃ u, t ≤ u ∧ r.act u = some a ∧ ready (r.state u) := by
  by_contra never
  have always : ∀ u, t ≤ u → ready (r.state u) := by
    intro u later
    induction later with
    | refl => exact now
    | @step v later ih =>
      cases act : r.act v with
      | none =>
        rw [r.idle v act]
        exact ih
      | some b =>
        obtain ⟨able, next⟩ := r.taken v b act
        have other : b ≠ a := by
          rintro rfl
          exact never ⟨v, later, act, ih⟩
        rw [next]
        exact stays _ b other ih able
  obtain ⟨u, later, act⟩ := fair t always
  exact never ⟨u, later, act, always u later⟩

end Run

/-- The state after the first `t` of a list of actions. -/
def after (m : Machine σ α) (s : σ) (actions : List α) (t : Nat) : σ := (actions.take t).foldl m.next s

theorem enabled_of_leadsTo [∀ s a, Decidable (m.enabled s a)] {test : σ → Bool} {s : σ} {actions : List α}
    (run : m.leadsTo test s actions = true) {t : Nat} {a : α} (taken : actions[t]? = some a) :
    m.enabled (m.after s actions t) a := by
  induction actions generalizing s t with
  | nil => simp at taken
  | cons first actions ih =>
    simp only [leadsTo, Bool.and_eq_true, decide_eq_true_eq] at run
    cases t with
    | zero =>
      obtain rfl : first = a := by simpa using taken
      exact run.1
    | succ t => exact ih run.2 (by simpa using taken)

/-- The run that takes the actions of a list and idles from then on. -/
def Run.ofActions [∀ s a, Decidable (m.enabled s a)] {test : σ → Bool} {s : σ} {actions : List α} (first : m.start s)
    (run : m.leadsTo test s actions = true) : m.Run where
  state := m.after s actions
  act t := actions[t]?
  start := first
  taken t a taken := by
    refine ⟨enabled_of_leadsTo run taken, ?_⟩
    rw [after, after, List.take_add_one, taken, List.foldl_append]
    rfl
  idle t past := by
    rw [after, after, List.take_add_one, past]
    simp

/-- Such a run is fair to what is not ready in its last state. -/
theorem Run.fair_ofActions [∀ s a, Decidable (m.enabled s a)] {test : σ → Bool} {s : σ} {actions : List α}
    (first : m.start s) (run : m.leadsTo test s actions = true) {ready : σ → Prop}
    (ended : ¬ready (actions.foldl m.next s)) (a : α) : (Run.ofActions first run).Fair ready a := by
  intro t always
  have last : m.after s actions (max t actions.length) = actions.foldl m.next s := by
    rw [after, List.take_of_length_le (Nat.le_max_right _ _)]
  exact absurd (last ▸ always _ (Nat.le_max_left t actions.length)) ended

end Machine
