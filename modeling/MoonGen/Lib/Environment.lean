universe u v

/-- The values of the names that are bound. -/
abbrev Environment (ν : Type u) (α : Type v) := ν → Option α

namespace Environment

variable {ν : Type u} {α : Type v} {ρ ρ' ρ'' : Environment ν α} {x y : ν} {a : α}

def empty : Environment ν α := fun _ => none

def bind [DecidableEq ν] (ρ : Environment ν α) (x : ν) (a : α) : Environment ν α :=
  fun y => if y = x then some a else ρ y

/-- What is bound in the first is bound to the same in the second. -/
def Le (ρ ρ' : Environment ν α) : Prop := ∀ ⦃x a⦄, ρ x = some a → ρ' x = some a

theorem Le.refl (ρ : Environment ν α) : ρ.Le ρ := fun _ _ bound => bound

theorem Le.trans (first : ρ.Le ρ') (second : ρ'.Le ρ'') : ρ.Le ρ'' := fun _ _ bound => second (first bound)

section Bind
variable [DecidableEq ν]

@[simp]
theorem bind_self : (ρ.bind x a) x = some a := if_pos rfl

theorem bind_of_ne (other : y ≠ x) : (ρ.bind x a) y = ρ y := if_neg other

theorem bind_cases {b : α} (bound : (ρ.bind x a) y = some b) : (y = x ∧ b = a) ∨ (y ≠ x ∧ ρ y = some b) := by
  by_cases same : y = x
  · subst same
    rw [bind_self] at bound
    exact .inl ⟨rfl, (Option.some.inj bound).symm⟩
  · rw [bind_of_ne same] at bound
    exact .inr ⟨same, bound⟩

theorem bind_le (rest : ∀ y b, y ≠ x → ρ y = some b → ρ' y = some b) (value : ρ' x = some a) : (ρ.bind x a).Le ρ' := by
  intro y b bound
  rcases bind_cases bound with ⟨rfl, rfl⟩ | ⟨other, below⟩
  · exact value
  · exact rest y b other below

theorem Le.bind (le : ρ.Le ρ') (x : ν) (a : α) : (ρ.bind x a).Le (ρ'.bind x a) := by
  apply bind_le _ bind_self
  intro y b other bound
  rw [bind_of_ne other]
  exact le bound

theorem le_bind (fresh : ρ x = none) : ρ.Le (ρ.bind x a) := by
  intro y b bound
  have other : y ≠ x := by
    rintro rfl
    rw [fresh] at bound
    cases bound
  rw [bind_of_ne other]
  exact bound

end Bind

end Environment
