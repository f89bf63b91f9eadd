import MoonGen.Pf.Substitution

namespace MoonGen

open List Option

namespace Pf

abbrev Counts := Environment Name Nat

/-- Counting a variable that has no binding is an error. -/
def countNames : List Name → Counts → Option Counts
  | [], counts => some counts
  | x :: names, counts =>
    if x = .len then countNames names counts
    else (counts x).bind fun n => countNames names (counts.bind x (n + 1))

def count : Anf → Counts → Option Counts
  | .cond test t f, counts => (count test counts).bind fun counts => (count t counts).bind fun counts => count f counts
  | .bind x val body, counts => (countNames (Operand.names val) (counts.bind x 0)).bind fun counts => count body counts
  | .rel _ l r, counts => countNames (l.names ++ r.names) counts
  | .call _ args, counts => countNames (args.flatMap Atom.names) counts
  | .true, counts => some counts
  | .false, counts => some counts
  | .matched, counts => some counts
  | .fail, counts => some counts

def Atom.subst (substs : Substs Arith) : Atom → Arith
  | .num n => .num n
  | .name x => substs.lookup x

/-- The value of a variable that is used once stands where the variable was used. -/
def inlineVisitor (counts : Counts) : Visitor Atom (Prim Atom) Arith Arith Unit (Substs Arith) where
  operand substs e := some (e.subst substs)
  binding var val _ substs :=
    let replacementVal := Arith.ofPrim (val.map (Atom.subst substs))
    if counts var = some 1 then some (none, (), substs.bind var replacementVal)
    else some (some (var, replacementVal), (), substs)

def inlineSingleUseVariables (e : Anf) : Option Inlined :=
  (count e .empty).bind fun counts => ((inlineVisitor counts).visit e () .empty).map Prod.fst

section Count
variable {S : Name → Prop}

/-- What has a count keeps one. -/
def Counted (S : Name → Prop) (counts : Counts) : Prop := ∀ x, S x → x = .len ∨ ∃ n, counts x = some n

theorem Counted.bind {counts : Counts} (counted : Counted S counts) (x : Name) (n : Nat) :
    Counted (fun y => y = x ∨ S y) (counts.bind x n) := by
  intro y inScope
  by_cases same : y = x
  · subst same
    exact .inr ⟨n, Environment.bind_self⟩
  · rw [Environment.bind_of_ne same]
    exact counted y (inScope.resolve_left same)

theorem countNames_total {names : List Name} {counts : Counts} (counted : Counted S counts)
    (known : ∀ x ∈ names, S x) : ∃ counts', countNames names counts = some counts' ∧ Counted S counts' := by
  induction names generalizing counts with
  | nil => exact ⟨counts, rfl, counted⟩
  | cons x names ih =>
    have others : ∀ y ∈ names, S y := fun y member => known y (mem_cons_of_mem x member)
    rw [countNames]
    by_cases length : x = .len
    · rw [if_pos length]
      exact ih counted others
    · obtain ⟨n, found⟩ := (counted x (known x mem_cons_self)).resolve_left length
      rw [if_neg length, found, bind_some]
      exact ih (fun y inScope => counted.bind x (n + 1) y (.inr inScope)) others

theorem count_total {e : Anf} {counts : Counts} (counted : Counted S counts) (inside : e.Scoped S) :
    ∃ counts', count e counts = some counts' ∧ Counted S counts' := by
  induction e generalizing S counts with
  | true | false | matched | fail => exact ⟨counts, rfl, counted⟩
  | call name args =>
    refine countNames_total counted fun x member => ?_
    obtain ⟨e, argument, mentioned⟩ := mem_flatMap.mp member
    exact inside e argument x mentioned
  | rel op l r =>
    exact countNames_total counted fun x member => (mem_append.mp member).elim (inside.1 x) (inside.2 x)
  | cond test t f ihTest ihT ihF =>
    obtain ⟨counts₁, tested, counted₁⟩ := ihTest counted inside.1
    obtain ⟨counts₂, onTrue, counted₂⟩ := ihT counted₁ inside.2.1
    rw [count, tested, bind_some, onTrue, bind_some]
    exact ihF counted₂ inside.2.2
  | bind x val body ih =>
    have start := counted.bind x 0
    obtain ⟨counts₁, value, counted₁⟩ := countNames_total start fun y member => .inr (inside.1 y member)
    obtain ⟨counts₂, rest, counted₂⟩ := ih counted₁ inside.2
    rw [count, value, bind_some]
    exact ⟨counts₂, rest, fun y inScope => counted₂ y (.inr inScope)⟩

end Count

section
variable {counts : Counts} {F : Name → Prop} {substs : Substs Arith} {x : Name} {val : Prim Atom}

theorem inline_binding_cases {b : Option (Name × Arith) × Unit × Substs Arith}
    (bound : (inlineVisitor counts).binding x val () substs = some b) :
    b = (none, (), substs.bind x (.ofPrim (val.map (Atom.subst substs)))) ∨
      b = (some (x, .ofPrim (val.map (Atom.subst substs))), (), substs) := by
  simp only [inlineVisitor] at bound
  split at bound
  · exact .inl (Option.some.inj bound).symm
  · exact .inr (Option.some.inj bound).symm

theorem Atom.eval_subst {α : Type} {M : Meaning α} {ρ : Env α} {e : Atom} :
    (e.subst substs).eval M ρ = e.eval M fun y => (substs.lookup y).eval M ρ := by
  cases e <;> rfl

theorem Tied.eval_val {α : Type} {M : Meaning α} {ρ ρ' : Env α} {a : α} (tied : Tied M F ρ ρ' substs)
    (value : Operand.eval M ρ val = some a) :
    (Arith.ofPrim (val.map (Atom.subst substs))).eval M ρ' = some a := by
  rw [Arith.eval_ofPrim, Meaning.prim_map]
  refine Meaning.prim_mono (fun e b known => ?_) value
  rw [Atom.eval_subst]
  exact Atom.eval_mono tied.tracks known

theorem inline_tying {α : Type} (M : Meaning α) (counts : Counts) :
    Sound (inlineVisitor counts) M fun F w _ substs => Tied M F w.1 w.2 substs where
  mono := Tied.mono
  frame := by
    intro F w around env substs x val b tied known bound
    rcases inline_binding_cases bound with rfl | rfl
    · exact tied.frame known _
    · exact tied.mono fun z left => left.1
  operand := by
    intro F ρ ρ' env substs e e' a tied visited value
    cases visited
    show (e.subst substs).eval M ρ' = some a
    rw [Atom.eval_subst]
    exact Atom.eval_mono tied.tracks value
  binding := by
    intro F ρ ρ' env substs x val a b tied known bound value
    have same := tied.eval_val value
    rcases inline_binding_cases bound with rfl | rfl
    · exact ⟨ρ', fun body => rfl, tied.replace known same⟩
    · refine ⟨ρ'.bind x a, fun body => ?_, tied.keep known a⟩
      rw [bindIf, Pred.eval]
      show ((Arith.ofPrim (val.map (Atom.subst substs))).eval M ρ').bind _ = _
      rw [same, bind_some]

theorem Held.names_subst {S S' : Name → Prop} {e : Atom} (held : Held F S S' substs)
    (names : ∀ y ∈ e.names, S y) : ∀ y ∈ (e.subst substs).names, S' y := by
  cases e with
  | num n => exact forall_mem_nil _
  | name x => exact held.tracks x (names x mem_cons_self)

theorem Held.names_val {S S' : Name → Prop} (held : Held F S S' substs) (names : ∀ y ∈ Operand.names val, S y) :
    ∀ y ∈ (Arith.ofPrim (val.map (Atom.subst substs))).names, S' y := by
  intro y member
  rw [Arith.names_ofPrim, Prim.operands_map, flatMap_map] at member
  obtain ⟨e, operand, mentioned⟩ := mem_flatMap.mp member
  exact held.names_subst (fun z within => names z (mem_flatMap.mpr ⟨e, operand, within⟩)) y mentioned

theorem inline_holding (counts : Counts) :
    Closed (inlineVisitor counts) fun F w _ substs => Held F w.1 w.2 substs where
  mono := Held.mono
  frame := by
    intro F w around env substs x val b held known bound
    rcases inline_binding_cases bound with rfl | rfl
    · exact held.frame known _
    · exact held.mono fun z left => left.1
  operand := fun held names => ⟨_, rfl, held.names_subst names⟩
  binding := by
    intro F S S' env substs x val held known names
    have found : ∃ b, (inlineVisitor counts).binding x val () substs = some b := by
      simp only [inlineVisitor]
      split <;> exact ⟨_, rfl⟩
    obtain ⟨b, bound⟩ := found
    rcases inline_binding_cases bound with rfl | rfl
    · exact ⟨_, S', bound, fun body inside => inside, held.replace known (held.names_val names)⟩
    · exact ⟨_, _, bound, fun body inside => ⟨held.names_val names, inside⟩, held.keep known⟩

end

/-- No variable is counted before it is bound. -/
theorem inlineSingleUseVariables_total {e : Anf} {S : Name → Prop} (distinct : e.binders.Nodup)
    (outside : ∀ x ∈ e.binders, ¬S x) (inside : e.Scoped S) (length : ∀ x, S x → x = .len) :
    ∃ e', inlineSingleUseVariables e = some e' ∧ e'.Scoped S ∧ e'.binders.Sublist e.binders := by
  obtain ⟨counts, counted, _⟩ := count_total (fun x inScope => .inl (length x inScope)) inside
  obtain ⟨r, visited, scope⟩ := (inline_holding counts).visit .start ⟨distinct, outside⟩ inside
  refine ⟨r.1, ?_, scope, visit_binders ?_ visited⟩
  · rw [inlineSingleUseVariables, counted, bind_some, visited, map_some]
  · intro x val env substs b bound y kept
    rcases inline_binding_cases bound with rfl | rfl
    · cases kept
    · cases kept
      rfl

/-- The meaning does not depend on what has been counted. -/
theorem inlineSingleUseVariables_sound {e : Anf} {e' : Inlined} {α : Type} {M : Meaning α} {ρ : Env α}
    {o : Outcome} (done : inlineSingleUseVariables e = some e') (distinct : e.binders.Nodup)
    (unbound : ∀ x ∈ e.binders, ρ x = none) (known : e.eval M ρ = some o) : e'.eval M ρ = some o := by
  obtain ⟨counts, _, rest⟩ := bind_eq_some_iff.mp done
  obtain ⟨r, visited, rfl⟩ := map_eq_some_iff.mp rest
  exact (inline_tying M counts).visit .start ⟨distinct, unbound⟩ visited known

end Pf

end MoonGen
