import Mathlib.Algebra.Order.Group.Nat

universe u

/-- A loop with a test before each round. A round that does not end has no value, and one
that leaves the loop has the second component true. -/
structure Loop (σ : Type u) where
  test : σ → Bool
  body : σ → Option (σ × Bool)

namespace Loop

variable {σ : Type u} (l : Loop σ)

/-- The state behind the loop, if it takes at most `fuel` rounds. -/
def run : Nat → σ → Option σ
  | 0, s => if l.test s then none else some s
  | fuel + 1, s =>
    if l.test s then
      match l.body s with
      | none => none
      | some (t, true) => some t
      | some (t, false) => run fuel t
    else some s

/-- The states before a test. -/
inductive Reaches (s : σ) : σ → Prop
  | start : Reaches s s
  | next {t t' : σ} : Reaches s t → l.test t = true → l.body t = some (t', false) → Reaches s t'

variable {l}
variable {s : σ}

theorem run_of_stop (stop : l.test s = false) (fuel : Nat) : l.run fuel s = some s := by
  cases fuel <;> rw [run, if_neg (Bool.eq_false_iff.mp stop)]

theorem run_of_stuck (go : l.test s = true) (stuck : l.body s = none) (fuel : Nat) : l.run fuel s = none := by
  cases fuel <;> rw [run, if_pos go]
  rw [stuck]

theorem run_of_leave {t : σ} (go : l.test s = true) (leave : l.body s = some (t, true)) (fuel : Nat) :
    l.run (fuel + 1) s = some t := by
  rw [run, if_pos go, leave]

theorem run_of_again {t : σ} (go : l.test s = true) (again : l.body s = some (t, false)) (fuel : Nat) :
    l.run (fuel + 1) s = l.run fuel t := by
  rw [run, if_pos go, again]

variable {fuel : Nat}

theorem run_cases {r : σ} (result : l.run fuel s = some r) :
    (l.test s = false ∧ r = s) ∨
      ∃ rest, fuel = rest + 1 ∧ l.test s = true ∧
        (l.body s = some (r, true) ∨ ∃ t, l.body s = some (t, false) ∧ l.run rest t = some r) := by
  cases test : l.test s with
  | false => exact .inl ⟨rfl, (Option.some.inj ((run_of_stop test fuel).symm.trans result)).symm⟩
  | true =>
    cases fuel with
    | zero =>
      rw [run, if_pos test] at result
      cases result
    | succ rest =>
      refine .inr ⟨rest, rfl, rfl, ?_⟩
      match way : l.body s with
      | none =>
        rw [run_of_stuck test way] at result
        cases result
      | some (t, true) =>
        rw [run_of_leave test way] at result
        cases result
        exact .inl rfl
      | some (t, false) => exact .inr ⟨t, rfl, (run_of_again test way rest).symm.trans result⟩

/-- A loop ends as it should when each round ends and takes something from a number. -/
theorem exists_run_with {I Q : σ → Prop} (variant : σ → Nat) (stop : ∀ s, I s → l.test s = false → Q s)
    (step : ∀ s, I s → l.test s = true → 0 < variant s ∧ ∃ t leave, l.body s = some (t, leave) ∧
      (leave = true → Q t) ∧ (leave = false → I t ∧ variant t < variant s)) (first : I s)
    (enough : variant s ≤ fuel) : ∃ r, l.run fuel s = some r ∧ Q r := by
  induction fuel generalizing s with
  | zero =>
    cases test : l.test s with
    | false => exact ⟨s, run_of_stop test 0, stop s first test⟩
    | true => exact absurd (step s first test).1 (by omega)
  | succ fuel ih =>
    cases test : l.test s with
    | false => exact ⟨s, run_of_stop test _, stop s first test⟩
    | true =>
      obtain ⟨-, t, leave, way, last, later⟩ := step s first test
      cases leave with
      | true => exact ⟨t, run_of_leave test way fuel, last rfl⟩
      | false =>
        obtain ⟨kept, shorter⟩ := later rfl
        obtain ⟨r, result, good⟩ := ih kept (show variant t ≤ fuel by omega)
        exact ⟨r, (run_of_again test way fuel).trans result, good⟩

/-- A loop ends when each round ends and takes something from a number. -/
theorem exists_run {I : σ → Prop} (variant : σ → Nat) (step : ∀ s, I s → l.test s = true → 0 < variant s ∧
      ∃ t leave, l.body s = some (t, leave) ∧ (leave = false → I t ∧ variant t < variant s)) (first : I s)
    (enough : variant s ≤ fuel) : ∃ r, l.run fuel s = some r := by
  have total : ∃ r, l.run fuel s = some r ∧ True := by
    refine exists_run_with variant (fun _ _ _ => trivial) (fun s inv go => ?_) first enough
    obtain ⟨positive, t, leave, way, later⟩ := step s inv go
    exact ⟨positive, t, leave, way, fun _ => trivial, later⟩
  exact total.imp fun r run => run.1

/-- What every round keeps holds behind the loop. -/
theorem run_invariant {I : σ → Prop} (keep : ∀ s t leave, I s → l.test s = true → l.body s = some (t, leave) → I t)
    {r : σ} (first : I s) (result : l.run fuel s = some r) : I r := by
  induction fuel generalizing s with
  | zero =>
    obtain ⟨-, rfl⟩ | ⟨rest, wrong, -⟩ := run_cases result
    · exact first
    · cases wrong
  | succ fuel ih =>
    obtain ⟨-, rfl⟩ | ⟨rest, same, go, leave | ⟨t, again, result⟩⟩ := run_cases result
    · exact first
    · exact keep s r true first go leave
    · cases same
      exact ih (keep s t false first go again) result

/-- A loop ends at a test that fails or in a round that leaves it. -/
theorem run_last {r : σ} (result : l.run fuel s = some r) :
    ∃ t, l.Reaches s t ∧ ((l.test t = false ∧ r = t) ∨ (l.test t = true ∧ l.body t = some (r, true))) := by
  have go : ∀ t, l.Reaches s t → ∀ fuel, l.run fuel t = some r →
      ∃ t, l.Reaches s t ∧ ((l.test t = false ∧ r = t) ∨ (l.test t = true ∧ l.body t = some (r, true))) := by
    intro t reach fuel
    induction fuel generalizing t with
    | zero =>
      intro result
      obtain ⟨stop, same⟩ | ⟨rest, wrong, -⟩ := run_cases result
      · exact ⟨t, reach, .inl ⟨stop, same⟩⟩
      · cases wrong
    | succ fuel ih =>
      intro result
      obtain ⟨stop, same⟩ | ⟨rest, same, go, leave | ⟨t', again, result⟩⟩ := run_cases result
      · exact ⟨t, reach, .inl ⟨stop, same⟩⟩
      · exact ⟨t, reach, .inr ⟨go, leave⟩⟩
      · cases same
        exact ih t' (reach.next go again) result
  exact go s .start fuel result

/-- From a state that is reached the loop goes on to the same end. -/
theorem Reaches.run {t r : σ} (reach : l.Reaches s t) (result : l.run fuel s = some r) :
    ∃ rest, l.run rest t = some r := by
  induction reach with
  | start => exact ⟨fuel, result⟩
  | next before go again ih =>
    obtain ⟨rest, same⟩ := ih
    obtain ⟨stop, -⟩ | ⟨rest', rfl, -, -⟩ := run_cases same
    · exact absurd (stop.symm.trans go) Bool.false_ne_true
    · exact ⟨rest', (run_of_again go again rest').symm.trans same⟩

end Loop
