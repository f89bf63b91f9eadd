import Mathlib.Data.List.Nodup
import MoonGen.Pf.Lower
import MoonGen.Pf.Cse
import MoonGen.Pf.Inline

namespace MoonGen

open List Option

namespace Pf

/-- The number of the last variable and the new names. -/
abbrev Renumbering := Nat × Substs Name

namespace Renumbering

/-- Looking up a variable without a new name is an error. -/
def lookup (substs : Substs Name) (x : Name) : Option Name := if x = .len then some .len else substs x

def intern (s : Renumbering) (x : Name) : Renumbering := (s.1 + 1, s.2.bind x (.v (s.1 + 1)))

end Renumbering

def Arith.rename (f : Name → Option Name) : Arith → Option Arith
  | .num n => some (.num n)
  | .name x => (f x).map .name
  | .un op e => (e.rename f).map (.un op)
  | .bin op l r => (l.rename f).bind fun lhs => (r.rename f).map (.bin op lhs)
  | .load pos size => (pos.rename f).map fun operand => .load operand size

def renumberVisitor : Visitor Arith Arith Arith Arith Unit Renumbering where
  operand s e := e.rename (Renumbering.lookup s.2)
  binding var val _ s :=
    let s' := s.intern var
    (val.rename (Renumbering.lookup s'.2)).map fun val => (some (.v s'.1, val), (), s')

def renumber (e : Inlined) : Option Inlined := (renumberVisitor.visit e () (0, .empty)).map Prod.fst

def convertAnf (e : Filter) : Option Inlined := (cse (lower e)).bind fun e => (inlineSingleUseVariables e).bind renumber

theorem Arith.eval_rename {α : Type} {M : Meaning α} {ρ ρ' : Env α} {f : Name → Option Name} {e e' : Arith} {a : α}
    (tracks : ρ.Le fun y => (f y).bind ρ') (renamed : e.rename f = some e') (known : e.eval M ρ = some a) :
    e'.eval M ρ' = some a := by
  induction e generalizing e' a with
  | num n =>
    cases renamed
    exact known
  | name x =>
    obtain ⟨y, found, rfl⟩ := map_eq_some_iff.mp renamed
    have value : (f x).bind ρ' = some a := tracks known
    rwa [found, bind_some] at value
  | un op e ih =>
    obtain ⟨e₁, inner, rfl⟩ := map_eq_some_iff.mp renamed
    obtain ⟨b, operand, rfl⟩ := map_eq_some_iff.mp known
    rw [Arith.eval, ih inner operand, map_some]
  | bin op l r ihl ihr =>
    obtain ⟨lhs, left, rest⟩ := bind_eq_some_iff.mp renamed
    obtain ⟨rhs, right, rfl⟩ := map_eq_some_iff.mp rest
    obtain ⟨b, first, rest⟩ := bind_eq_some_iff.mp known
    obtain ⟨c, second, found⟩ := bind_eq_some_iff.mp rest
    rw [Arith.eval, ihl left first, ihr right second, bind_some, bind_some, found]
  | load pos size ih =>
    obtain ⟨e₁, inner, rfl⟩ := map_eq_some_iff.mp renamed
    obtain ⟨b, operand, found⟩ := bind_eq_some_iff.mp known
    rw [Arith.eval, ih inner operand, bind_some, found]

theorem Arith.rename_total {f : Name → Option Name} {S S' : Name → Prop} {e : Arith}
    (tracks : ∀ y, S y → ∃ y', f y = some y' ∧ S' y') (names : ∀ y ∈ e.names, S y) :
    ∃ e', e.rename f = some e' ∧ ∀ y ∈ e'.names, S' y := by
  induction e with
  | num n => exact ⟨.num n, rfl, forall_mem_nil _⟩
  | name x =>
    obtain ⟨y, found, inScope⟩ := tracks x (names x mem_cons_self)
    refine ⟨.name y, by rw [Arith.rename, found, map_some], fun z member => ?_⟩
    rwa [mem_singleton.mp member]
  | un op e ih =>
    obtain ⟨e', renamed, inScope⟩ := ih names
    exact ⟨.un op e', by rw [Arith.rename, renamed, map_some], inScope⟩
  | bin op l r ihl ihr =>
    obtain ⟨lhs, left, lhsIn⟩ := ihl fun y member => names y (mem_append_left _ member)
    obtain ⟨rhs, right, rhsIn⟩ := ihr fun y member => names y (mem_append_right _ member)
    refine ⟨.bin op lhs rhs, by rw [Arith.rename, left, bind_some, right, map_some], ?_⟩
    exact fun y member => (mem_append.mp member).elim (lhsIn y) (rhsIn y)
  | load pos size ih =>
    obtain ⟨e', renamed, inScope⟩ := ih names
    exact ⟨.load e' size, by rw [Arith.rename, renamed, map_some], inScope⟩

namespace Renumbering

variable {F F' : Name → Prop} {s : Renumbering} {x y : Name}

theorem lookup_intern_self (other : x ≠ .len) : lookup (s.intern x).2 x = some (.v (s.1 + 1)) := by
  rw [lookup, if_neg other]
  exact Environment.bind_self

theorem lookup_intern_of_ne (other : y ≠ x) : lookup (s.intern x).2 y = lookup s.2 y := by
  show (if y = .len then some .len else (s.2.bind x _) y) = lookup s.2 y
  rw [Environment.bind_of_ne other, lookup]

/-- A variable has its value under its new name, and the numbers to come are free. -/
structure Ties {α : Type} (F : Name → Prop) (w : Env α × Env α) (s : Renumbering) : Prop where
  ahead : ∀ x, F x → w.1 x = none ∧ x ≠ .len
  tracks : w.1.Le fun y => (lookup s.2 y).bind w.2
  free : ∀ n, s.1 < n → w.2 (.v n) = none

theorem Ties.frame {α : Type} {w : Env α × Env α} (ties : Ties F w s) (known : F x) :
    Ties (fun y => F y ∧ y ≠ x) w (s.intern x) where
  ahead := fun y left => ties.ahead y left.1
  tracks := by
    intro y a value
    have other : y ≠ x := by
      rintro rfl
      rw [(ties.ahead y known).1] at value
      cases value
    show (lookup (s.intern x).2 y).bind w.2 = some a
    rw [lookup_intern_of_ne other]
    exact ties.tracks value
  free := fun n above => ties.free n (Nat.lt_of_succ_lt above)

theorem Ties.bind {α : Type} {ρ ρ' : Env α} (ties : Ties F (ρ, ρ') s) (known : F x) (a : α) :
    Ties (fun y => F y ∧ y ≠ x) (ρ.bind x a, ρ'.bind (.v (s.1 + 1)) a) (s.intern x) where
  ahead := by
    intro y left
    obtain ⟨source, other⟩ := ties.ahead y left.1
    exact ⟨(Environment.bind_of_ne left.2).trans source, other⟩
  tracks := by
    apply Environment.bind_le
    · intro y b _ value
      obtain ⟨y', found, held⟩ := bind_eq_some_iff.mp ((ties.frame known).tracks value)
      have grows := Environment.le_bind (ties.free _ (Nat.lt_succ_self s.1)) (a := a)
      show (lookup (s.intern x).2 y).bind (ρ'.bind _ a) = some b
      rw [found, bind_some]
      exact grows held
    · show (lookup (s.intern x).2 x).bind (ρ'.bind _ a) = some a
      rw [lookup_intern_self (ties.ahead x known).2, bind_some, Environment.bind_self]
  free := by
    intro n above
    have other : Name.v n ≠ .v (s.1 + 1) := by
      intro same
      cases same
      exact Nat.lt_irrefl _ above
    show (ρ'.bind (.v (s.1 + 1)) a) (.v n) = none
    rw [Environment.bind_of_ne other]
    exact ties.free n (Nat.lt_of_succ_lt above)

end Renumbering

theorem renumber_binding_cases {x : Name} {val : Arith} {s : Renumbering}
    {b : Option (Name × Arith) × Unit × Renumbering} (bound : renumberVisitor.binding x val () s = some b) :
    ∃ val', val.rename (Renumbering.lookup (s.intern x).2) = some val' ∧
      b = (some (.v (s.1 + 1), val'), (), s.intern x) := by
  obtain ⟨val', renamed, rfl⟩ := map_eq_some_iff.mp bound
  exact ⟨val', renamed, rfl⟩

theorem renumber_tying {α : Type} (M : Meaning α) :
    Sound renumberVisitor M fun F w _ s => Renumbering.Ties F w s where
  mono := fun le ties => ⟨fun x left => ties.ahead x (le x left), ties.tracks, ties.free⟩
  frame := by
    intro F w around env s x val b ties known bound
    obtain ⟨_, _, rfl⟩ := renumber_binding_cases bound
    exact ties.frame known
  operand := fun ties renamed value => Arith.eval_rename ties.tracks renamed value
  binding := by
    intro F ρ ρ' env s x val a b ties known bound value
    obtain ⟨val', renamed, rfl⟩ := renumber_binding_cases bound
    refine ⟨ρ'.bind (.v (s.1 + 1)) a, fun body => ?_, ties.bind known a⟩
    have same : val'.eval M ρ' = some a := Arith.eval_rename (ties.frame known).tracks renamed value
    rw [bindIf, Pred.eval]
    show (val'.eval M ρ').bind _ = _
    rw [same, bind_some]

/-- What is in scope has a new name in scope. -/
structure Renumbering.Holds (F : Name → Prop) (w : (Name → Prop) × (Name → Prop)) (s : Renumbering) : Prop where
  ahead : ∀ x, F x → ¬w.1 x ∧ x ≠ .len
  tracks : ∀ y, w.1 y → ∃ y', lookup s.2 y = some y' ∧ w.2 y'

theorem Renumbering.Holds.frame {F : Name → Prop} {w : (Name → Prop) × (Name → Prop)} {s : Renumbering} {x : Name}
    (holds : Holds F w s) (known : F x) : Holds (fun y => F y ∧ y ≠ x) w (s.intern x) where
  ahead := fun y left => holds.ahead y left.1
  tracks := by
    intro y inScope
    have other : y ≠ x := by
      rintro rfl
      exact (holds.ahead y known).1 inScope
    rw [lookup_intern_of_ne other]
    exact holds.tracks y inScope

theorem renumber_holding : Closed renumberVisitor fun F w _ s => Renumbering.Holds F w s where
  mono := fun le holds => ⟨fun x left => holds.ahead x (le x left), holds.tracks⟩
  frame := by
    intro F w around env s x val b holds known bound
    obtain ⟨_, _, rfl⟩ := renumber_binding_cases bound
    exact holds.frame known
  operand := fun holds names => Arith.rename_total holds.tracks names
  binding := by
    intro F S S' env s x val holds known names
    obtain ⟨val', renamed, inScope⟩ := Arith.rename_total (holds.frame known).tracks names
    refine ⟨(some (.v (s.1 + 1), val'), (), s.intern x), fun y => y = .v (s.1 + 1) ∨ S' y, ?_,
      fun body inside => ⟨inScope, inside⟩, ?_, ?_⟩
    · show (val.rename _).map _ = _
      rw [renamed, map_some]
      rfl
    · intro y left
      obtain ⟨outside, other⟩ := holds.ahead y left.1
      exact ⟨fun inScope => inScope.elim left.2 outside, other⟩
    · rintro y (rfl | mentioned)
      · exact ⟨_, Renumbering.lookup_intern_self (holds.ahead y known).2, .inl rfl⟩
      · obtain ⟨y', found, inScope'⟩ := (holds.frame known).tracks y mentioned
        exact ⟨y', found, .inr inScope'⟩

theorem renumber_binders {e : Inlined} {s : Renumbering} {r : Inlined × Renumbering}
    (done : renumberVisitor.visit e () s = some r) :
    r.1.binders = (List.range' (s.1 + 1) e.binders.length).map .v ∧ r.2.1 = s.1 + e.binders.length := by
  induction e generalizing s r with
  | true | false | matched | fail =>
    cases done
    exact ⟨rfl, rfl⟩
  | call name args =>
    obtain ⟨out, _, rfl⟩ := map_eq_some_iff.mp done
    exact ⟨rfl, rfl⟩
  | rel op l r =>
    obtain ⟨lhs, _, rest⟩ := bind_eq_some_iff.mp done
    obtain ⟨rhs, _, rfl⟩ := map_eq_some_iff.mp rest
    exact ⟨rfl, rfl⟩
  | cond test t f ihTest ihT ihF =>
    obtain ⟨test', t', f', tested, onTrue, onFalse, rfl⟩ := visit_cond done
    obtain ⟨names₁, count₁⟩ := ihTest tested
    obtain ⟨names₂, count₂⟩ := ihT onTrue
    obtain ⟨names₃, count₃⟩ := ihF onFalse
    rw [count₁] at names₂ count₂
    rw [count₂] at names₃ count₃
    simp only [Pred.binders, length_append, names₁, names₂, names₃, count₃]
    refine ⟨?_, by omega⟩
    have second : s.1 + test.binders.length + 1 = s.1 + 1 + 1 * test.binders.length := by omega
    have third : s.1 + test.binders.length + t.binders.length + 1 =
        s.1 + 1 + 1 * (test.binders.length + t.binders.length) := by omega
    rw [third, second, ← map_append, ← map_append, range'_append, range'_append]
  | bind x val body ih =>
    obtain ⟨b, body', bound, visited, rfl⟩ := visit_bind done
    obtain ⟨val', _, rfl⟩ := renumber_binding_cases bound
    obtain ⟨names, count⟩ := ih visited
    simp only [Renumbering.intern] at names count
    simp only [bindIf, Pred.binders, length_cons, names, count]
    exact ⟨rfl, by omega⟩

theorem renumber_total {e : Inlined} (distinct : e.binders.Nodup) (others : ∀ x ∈ e.binders, x ≠ .len)
    (inside : e.Scoped (· = .len)) :
    ∃ e', renumber e = some e' ∧ e'.Scoped (· = .len) ∧ e'.binders = (List.range' 1 e.binders.length).map .v := by
  have start : Renumbering.Holds (fun x => x ≠ .len) ((· = .len), (· = .len)) (0, .empty) := by
    refine ⟨fun x other => ⟨other, other⟩, fun y length => ⟨.len, ?_, rfl⟩⟩
    rw [Renumbering.lookup, if_pos length]
  obtain ⟨r, visited, scope⟩ := renumber_holding.visit start ⟨distinct, others⟩ inside
  exact ⟨r.1, by rw [renumber, visited, map_some], scope, (renumber_binders visited).1⟩

theorem renumber_sound {e e' : Inlined} {α : Type} {M : Meaning α} {ρ : Env α} {o : Outcome}
    (done : renumber e = some e') (distinct : e.binders.Nodup) (others : ∀ x ∈ e.binders, x ≠ .len)
    (length : ∀ x, x ≠ .len → ρ x = none) (known : e.eval M ρ = some o) : e'.eval M ρ = some o := by
  obtain ⟨r, visited, rfl⟩ := map_eq_some_iff.mp done
  have start : Renumbering.Ties (fun x => x ≠ .len) (ρ, ρ) (0, .empty) := by
    refine ⟨fun x other => ⟨length x other, other⟩, fun y a value => ?_, fun n _ => length _ Name.noConfusion⟩
    replace value : ρ y = some a := value
    have same : y = .len := Decidable.byContradiction fun other => by
      rw [length y other] at value
      cases value
    show (Renumbering.lookup .empty y).bind ρ = some a
    rw [Renumbering.lookup, if_pos same, ← same, bind_some, value]
  exact (renumber_tying M).visit start ⟨distinct, others⟩ visited known

theorem varsBetween_nodup (count count' : Nat) : (varsBetween count count').Nodup := by
  exact List.Nodup.map (fun _ _ => Name.var.inj) (nodup_range' ..)

theorem ne_len_of_mem_varsBetween {count count' : Nat} {x : Name} (member : x ∈ varsBetween count count') :
    x ≠ .len := by
  obtain ⟨n, _, rfl⟩ := mem_map.mp member
  exact Name.noConfusion

/-- No assertion of the passes fails, the variables are `v1`, `v2`, … in the order of the text, and on every
packet on which the filter reads nothing that is not there the result is that of the filter. -/
theorem convertAnf_preserves (e : Filter) (inside : e.Scoped (· = .len)) :
    ∃ out n, convertAnf e = some out ∧ out.Scoped (· = .len) ∧ out.binders = (List.range' 1 n).map .v ∧
      ∀ {α : Type} (M : Meaning α) (ρ : Env α) (o : Outcome), (∀ x, x ≠ .len → ρ x = none) →
        e.eval M ρ = some o → out.eval M ρ = some o := by
  obtain ⟨n, names⟩ := lower_binders e
  have distinct : (lower e).binders.Nodup := names ▸ varsBetween_nodup 0 n
  have others : ∀ x ∈ (lower e).binders, x ≠ .len := fun x member => ne_len_of_mem_varsBetween (names ▸ member)
  obtain ⟨shared, sharing, inside₁, kept₁⟩ := cse_total distinct others (lower_scoped inside)
  have distinct₁ := kept₁.nodup distinct
  have others₁ : ∀ x ∈ shared.binders, x ≠ .len := fun x member => others x (kept₁.subset member)
  obtain ⟨inlined, inlining, inside₂, kept₂⟩ :=
    inlineSingleUseVariables_total distinct₁ others₁ inside₁ fun _ length => length
  have distinct₂ := kept₂.nodup distinct₁
  have others₂ : ∀ x ∈ inlined.binders, x ≠ .len := fun x member => others₁ x (kept₂.subset member)
  obtain ⟨out, numbering, inside₃, names₃⟩ := renumber_total distinct₂ others₂ inside₂
  refine ⟨out, inlined.binders.length, ?_, inside₃, names₃, ?_⟩
  · rw [convertAnf, sharing, bind_some, inlining, bind_some, numbering]
  · intro α M ρ o length known
    have first := lower_sound (fun n _ => length _ Name.noConfusion) known
    have second := cse_sound sharing distinct (fun x member => length x (others x member)) first
    have third := inlineSingleUseVariables_sound inlining distinct₁ (fun x member => length x (others₁ x member)) second
    exact renumber_sound numbering distinct₂ others₂ length third

end Pf

end MoonGen
