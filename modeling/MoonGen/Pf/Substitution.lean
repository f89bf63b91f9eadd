import MoonGen.Pf.Visit

namespace MoonGen

namespace Pf

/-- What can stand for a variable. -/
class Substitute (T : Type) extends Operand T where
  ofName : Name → T
  eval_ofName {α : Type} {M : Meaning α} {ρ : Env α} {x : Name} : eval M ρ (ofName x) = ρ x
  names_ofName {x : Name} : names (ofName x) = [x]

instance : Substitute Name where
  eval _ ρ x := ρ x
  names x := [x]
  eval_mono := fun le known => le known
  ofName x := x
  eval_ofName := rfl
  names_ofName := rfl

instance : Substitute Arith where
  ofName := .name
  eval_ofName := rfl
  names_ofName := rfl

abbrev Substs (T : Type) := Environment Name T

section
variable {T : Type} [Substitute T] {substs : Substs T} {x y : Name} {t : T}

/-- A variable without an entry stands for itself. -/
def Substs.lookup (substs : Substs T) (x : Name) : T := (substs x).getD (Substitute.ofName x)

theorem Substs.lookup_bind_self : lookup (substs.bind x t) x = t := by
  rw [lookup, Environment.bind_self, Option.getD_some]

theorem Substs.lookup_bind_of_ne (other : y ≠ x) : lookup (substs.bind x t) y = substs.lookup y := by
  rw [lookup, lookup, Environment.bind_of_ne other]

theorem Substs.lookup_of_none (unknown : substs x = none) : substs.lookup x = Substitute.ofName x := by
  rw [lookup, unknown, Option.getD_none]

/-- A variable of the source has the value of what stands for it. The names of `F` are still to be bound. -/
structure Tied {α : Type} (M : Meaning α) (F : Name → Prop) (ρ ρ' : Env α) (substs : Substs T) : Prop where
  ahead : ∀ x, F x → ρ x = none ∧ ρ' x = none ∧ substs x = none
  tracks : ρ.Le fun y => Operand.eval M ρ' (substs.lookup y)

namespace Tied

variable {α : Type} {M : Meaning α} {F F' : Name → Prop} {ρ ρ' : Env α} {a : α}

theorem start : Tied M (fun x => ρ x = none) ρ ρ (.empty : Substs T) where
  ahead := fun _ unbound => ⟨unbound, unbound, rfl⟩
  tracks := by
    intro y a value
    show Operand.eval M ρ (Substs.lookup (.empty : Substs T) y) = some a
    rw [Substs.lookup_of_none rfl, Substitute.eval_ofName, value]

theorem mono (le : ∀ x, F' x → F x) (tied : Tied M F ρ ρ' substs) : Tied M F' ρ ρ' substs :=
  ⟨fun x left => tied.ahead x (le x left), tied.tracks⟩

theorem frame (tied : Tied M F ρ ρ' substs) (known : F x) (t : T) :
    Tied M (fun y => F y ∧ y ≠ x) ρ ρ' (substs.bind x t) where
  ahead := by
    intro z left
    rw [Environment.bind_of_ne left.2]
    exact tied.ahead z left.1
  tracks := by
    intro z a value
    have other : z ≠ x := by
      rintro rfl
      rw [(tied.ahead z known).1] at value
      cases value
    show Operand.eval M ρ' (Substs.lookup (substs.bind x t) z) = some a
    rw [Substs.lookup_bind_of_ne other]
    exact tied.tracks value

/-- The target does without the variable. -/
theorem replace (tied : Tied M F ρ ρ' substs) (known : F x) (value : Operand.eval M ρ' t = some a) :
    Tied M (fun y => F y ∧ y ≠ x) (ρ.bind x a) ρ' (substs.bind x t) where
  ahead := by
    intro z left
    obtain ⟨source, target, table⟩ := (tied.frame known t).ahead z left
    exact ⟨(Environment.bind_of_ne left.2).trans source, target, table⟩
  tracks := by
    apply Environment.bind_le
    · exact fun z b _ value => (tied.frame known t).tracks value
    · show Operand.eval M ρ' (Substs.lookup (substs.bind x t) x) = some a
      rw [Substs.lookup_bind_self, value]

/-- The target binds the variable too. -/
theorem keep (tied : Tied M F ρ ρ' substs) (known : F x) (a : α) :
    Tied M (fun y => F y ∧ y ≠ x) (ρ.bind x a) (ρ'.bind x a) substs where
  ahead := by
    intro z left
    obtain ⟨source, target, table⟩ := tied.ahead z left.1
    exact ⟨(Environment.bind_of_ne left.2).trans source, (Environment.bind_of_ne left.2).trans target, table⟩
  tracks := by
    obtain ⟨_, unbound, table⟩ := tied.ahead x known
    apply Environment.bind_le
    · exact fun z b _ value => Operand.eval_mono (Environment.le_bind unbound) (tied.tracks value)
    · show Operand.eval M (ρ'.bind x a) (substs.lookup x) = some a
      rw [Substs.lookup_of_none table, Substitute.eval_ofName, Environment.bind_self]

end Tied

/-- What stands for a variable in scope in the source is in scope in the target. -/
structure Held (F S S' : Name → Prop) (substs : Substs T) : Prop where
  ahead : ∀ x, F x → ¬S x ∧ substs x = none
  tracks : ∀ y, S y → ∀ z ∈ Operand.names (substs.lookup y), S' z

namespace Held

variable {F F' S S' : Name → Prop}

theorem start : Held (fun x => ¬S x) S S (.empty : Substs T) where
  ahead := fun _ outside => ⟨outside, rfl⟩
  tracks := by
    intro y inScope z mentioned
    rw [Substs.lookup_of_none rfl, Substitute.names_ofName] at mentioned
    rwa [List.mem_singleton.mp mentioned]

theorem mono (le : ∀ x, F' x → F x) (held : Held F S S' substs) : Held F' S S' substs :=
  ⟨fun x left => held.ahead x (le x left), held.tracks⟩

theorem frame (held : Held F S S' substs) (known : F x) (t : T) :
    Held (fun y => F y ∧ y ≠ x) S S' (substs.bind x t) where
  ahead := by
    intro z left
    rw [Environment.bind_of_ne left.2]
    exact held.ahead z left.1
  tracks := by
    intro z inScope
    have other : z ≠ x := by
      rintro rfl
      exact (held.ahead z known).1 inScope
    rw [Substs.lookup_bind_of_ne other]
    exact held.tracks z inScope

theorem replace (held : Held F S S' substs) (known : F x) (names : ∀ z ∈ Operand.names t, S' z) :
    Held (fun y => F y ∧ y ≠ x) (fun y => y = x ∨ S y) S' (substs.bind x t) where
  ahead := by
    intro z left
    obtain ⟨outside, table⟩ := (held.frame known t).ahead z left
    exact ⟨fun inScope => inScope.elim left.2 outside, table⟩
  tracks := by
    rintro z (rfl | inScope)
    · rwa [Substs.lookup_bind_self]
    · exact (held.frame known t).tracks z inScope

theorem keep (held : Held F S S' substs) (known : F x) :
    Held (fun y => F y ∧ y ≠ x) (fun y => y = x ∨ S y) (fun y => y = x ∨ S' y) substs where
  ahead := by
    intro z left
    obtain ⟨outside, table⟩ := held.ahead z left.1
    exact ⟨fun inScope => inScope.elim left.2 outside, table⟩
  tracks := by
    rintro z (rfl | inScope) y mentioned
    · rw [Substs.lookup_of_none (held.ahead z known).2, Substitute.names_ofName] at mentioned
      exact .inl (List.mem_singleton.mp mentioned)
    · exact .inr (held.tracks z inScope y mentioned)

end Held

end

end Pf

end MoonGen
