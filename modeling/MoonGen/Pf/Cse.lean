import MoonGen.Pf.Substitution

namespace MoonGen

namespace Pf

def Atom.map (f : Name → Name) : Atom → Atom
  | .num n => .num n
  | .name x => .name (f x)

theorem Atom.eval_map {α : Type} {M : Meaning α} {ρ : Env α} {f : Name → Name} {e : Atom} :
    (e.map f).eval M ρ = e.eval M fun y => ρ (f y) := by
  cases e <;> rfl

theorem Atom.names_map {f : Name → Name} {e : Atom} : (e.map f).names = e.names.map f := by
  cases e <;> rfl

theorem Prim.names_map {f : Name → Name} {val : Prim Atom} :
    Operand.names (val.map (Atom.map f)) = (Operand.names val).map f := by
  cases val <;> simp [Operand.names, Prim.map, Prim.operands, Atom.names_map]

/-- The operations at hand, by what they compute. -/
abbrev Available := Environment (Prim Atom) Name

/-- An operation that is at hand under a name is replaced by the name. The key is the text of the operation. -/
def cseVisitor : Visitor Atom (Prim Atom) Atom (Prim Atom) Available (Substs Name) where
  operand replacements e := some (e.map replacements.lookup)
  binding var val env replacements :=
    let key := val.map (Atom.map replacements.lookup)
    match env key with
    | some cseVar => some (none, env, replacements.bind var cseVar)
    | none => some (some (var, key), env.bind key var, replacements)

def cse (e : Anf) : Option Anf := (cseVisitor.visit e .empty .empty).map Prod.fst

section
variable {F : Name → Prop} {env : Available} {replacements : Substs Name} {x y : Name} {val : Prim Atom}

theorem cse_binding_cases {b : Option (Name × Prim Atom) × Available × Substs Name}
    (bound : cseVisitor.binding x val env replacements = some b) :
    (∃ y, env (val.map (Atom.map replacements.lookup)) = some y ∧ b = (none, env, replacements.bind x y)) ∨
      b = (some (x, val.map (Atom.map replacements.lookup)), env.bind (val.map (Atom.map replacements.lookup)) x,
        replacements) := by
  simp only [cseVisitor] at bound
  split at bound
  · rename_i y known
    exact .inl ⟨y, known, (Option.some.inj bound).symm⟩
  · exact .inr (Option.some.inj bound).symm

/-- Besides, what is at hand has been computed. -/
structure Shares {α : Type} (M : Meaning α) (F : Name → Prop) (w : Env α × Env α) (env : Available)
    (replacements : Substs Name) : Prop extends Tied M F w.1 w.2 replacements where
  computed : ∀ p x, env p = some x → ∃ a, Operand.eval M w.2 p = some a ∧ w.2 x = some a

section
variable {α : Type} {M : Meaning α} {ρ ρ' : Env α} {a : α}

theorem Shares.eval_key (shares : Shares M F (ρ, ρ') env replacements) (value : Operand.eval M ρ val = some a) :
    Operand.eval M ρ' (val.map (Atom.map replacements.lookup)) = some a := by
  show M.prim _ (val.map _) = some a
  rw [Meaning.prim_map]
  refine Meaning.prim_mono (fun e b known => ?_) value
  show (e.map replacements.lookup).eval M ρ' = some b
  rw [Atom.eval_map]
  exact Atom.eval_mono shares.tracks known

theorem Shares.keep {key : Prim Atom} (shares : Shares M F (ρ, ρ') env replacements) (known : F x)
    (value : Operand.eval M ρ' key = some a) :
    Shares M (fun y => F y ∧ y ≠ x) (ρ.bind x a, ρ'.bind x a) (env.bind key x) replacements where
  toTied := shares.toTied.keep known a
  computed := by
    have grows : ρ'.Le (ρ'.bind x a) := Environment.le_bind (shares.ahead x known).2.1
    intro p y atHand
    rcases Environment.bind_cases atHand with ⟨rfl, rfl⟩ | ⟨_, before⟩
    · exact ⟨a, Operand.eval_mono grows value, Environment.bind_self⟩
    · obtain ⟨b, operation, held⟩ := shares.computed p y before
      exact ⟨b, Operand.eval_mono grows operation, grows held⟩

theorem cse_sharing (M : Meaning α) : Sound cseVisitor M (Shares M) where
  mono := fun le shares => ⟨shares.toTied.mono le, shares.computed⟩
  frame := by
    intro F w around env replacements x val b shares known bound
    rcases cse_binding_cases bound with ⟨y, _, rfl⟩ | rfl
    · exact ⟨shares.toTied.frame known y, shares.computed⟩
    · exact ⟨shares.toTied.mono fun z left => left.1, shares.computed⟩
  operand := by
    intro F ρ ρ' env replacements e e' a shares visited value
    cases visited
    show (e.map replacements.lookup).eval M ρ' = some a
    rw [Atom.eval_map]
    exact Atom.eval_mono shares.tracks value
  binding := by
    intro F ρ ρ' env replacements x val a b shares known bound value
    have key := shares.eval_key value
    rcases cse_binding_cases bound with ⟨y, atHand, rfl⟩ | rfl
    · obtain ⟨a', operation, held⟩ := shares.computed _ y atHand
      rw [key] at operation
      cases operation
      exact ⟨ρ', fun body => rfl, shares.toTied.replace known held, shares.computed⟩
    · refine ⟨ρ'.bind x a, fun body => ?_, shares.keep known key⟩
      rw [bindIf, Pred.eval, key, Option.bind_some]

end

/-- Besides, what is at hand is in scope. -/
structure Reaches (F : Name → Prop) (w : (Name → Prop) × (Name → Prop)) (env : Available)
    (replacements : Substs Name) : Prop extends Held F w.1 w.2 replacements where
  atHand : ∀ p x, env p = some x → w.2 x

theorem Held.inScope {S S' : Name → Prop} (held : Held F S S' replacements) (known : S y) :
    S' (replacements.lookup y) :=
  held.tracks y known _ List.mem_cons_self

theorem Reaches.names_key {S S' : Name → Prop} (reaches : Reaches F (S, S') env replacements)
    (names : ∀ y ∈ Operand.names val, S y) :
    ∀ y ∈ Operand.names (val.map (Atom.map replacements.lookup)), S' y := by
  intro y member
  rw [Prim.names_map] at member
  obtain ⟨z, mentioned, rfl⟩ := List.mem_map.mp member
  exact reaches.toHeld.inScope (names z mentioned)

theorem Reaches.keep {S S' : Name → Prop} {key : Prim Atom} (reaches : Reaches F (S, S') env replacements)
    (known : F x) :
    Reaches (fun y => F y ∧ y ≠ x) (fun y => y = x ∨ S y, fun y => y = x ∨ S' y) (env.bind key x)
      replacements where
  toHeld := reaches.toHeld.keep known
  atHand := by
    intro p y atHand
    rcases Environment.bind_cases atHand with ⟨_, rfl⟩ | ⟨_, before⟩
    · exact .inl rfl
    · exact .inr (reaches.atHand p y before)

theorem cse_reaching : Closed cseVisitor Reaches where
  mono := fun le reaches => ⟨reaches.toHeld.mono le, reaches.atHand⟩
  frame := by
    intro F w around env replacements x val b reaches known bound
    rcases cse_binding_cases bound with ⟨y, _, rfl⟩ | rfl
    · exact ⟨reaches.toHeld.frame known y, reaches.atHand⟩
    · exact ⟨reaches.toHeld.mono fun z left => left.1, reaches.atHand⟩
  operand := by
    intro F S S' env replacements e reaches names
    refine ⟨_, rfl, fun x member => ?_⟩
    replace member : x ∈ (e.map replacements.lookup).names := member
    rw [Atom.names_map] at member
    obtain ⟨y, mentioned, rfl⟩ := List.mem_map.mp member
    exact reaches.toHeld.inScope (names y mentioned)
  binding := by
    intro F S S' env replacements x val reaches known names
    have found : ∃ b, cseVisitor.binding x val env replacements = some b := by
      simp only [cseVisitor]
      split <;> exact ⟨_, rfl⟩
    obtain ⟨b, bound⟩ := found
    rcases cse_binding_cases bound with ⟨y, atHand, rfl⟩ | rfl
    · have inScope : ∀ z ∈ Operand.names y, S' z := fun z same =>
        List.mem_singleton.mp same ▸ reaches.atHand _ y atHand
      exact ⟨_, S', bound, fun body inside => inside, reaches.toHeld.replace known inScope, reaches.atHand⟩
    · exact ⟨_, _, bound, fun body inside => ⟨reaches.names_key names, inside⟩, reaches.keep known⟩

end

/-- The pass only takes bindings away. -/
theorem cse_total {e : Anf} {S : Name → Prop} (distinct : e.binders.Nodup) (outside : ∀ x ∈ e.binders, ¬S x)
    (inside : e.Scoped S) : ∃ e', cse e = some e' ∧ e'.Scoped S ∧ e'.binders.Sublist e.binders := by
  have start : Reaches (fun x => ¬S x) (S, S) .empty .empty := by
    refine ⟨.start, fun p x atHand => ?_⟩
    cases atHand
  obtain ⟨r, visited, scope⟩ := cse_reaching.visit start ⟨distinct, outside⟩ inside
  refine ⟨r.1, by rw [cse, visited, Option.map_some], scope, visit_binders ?_ visited⟩
  intro x val env replacements b bound y kept
  rcases cse_binding_cases bound with ⟨_, _, rfl⟩ | rfl
  · cases kept
  · cases kept
    rfl

theorem cse_sound {e e' : Anf} {α : Type} {M : Meaning α} {ρ : Env α} {o : Outcome} (done : cse e = some e')
    (distinct : e.binders.Nodup) (unbound : ∀ x ∈ e.binders, ρ x = none) (known : e.eval M ρ = some o) :
    e'.eval M ρ = some o := by
  obtain ⟨r, visited, rfl⟩ := Option.map_eq_some_iff.mp done
  have start : Shares M (fun x => ρ x = none) (ρ, ρ) .empty .empty := by
    refine ⟨.start, fun p x atHand => ?_⟩
    cases atHand
  exact (cse_sharing M).visit start ⟨distinct, unbound⟩ visited known

end Pf

end MoonGen
