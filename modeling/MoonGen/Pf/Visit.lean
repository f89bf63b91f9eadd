import MoonGen.Pf.Expr

namespace MoonGen

open List Option

namespace Pf

/-- What the passes over expressions with variables differ in: `ε` goes down into the body of a binding only,
`σ` is one table for the whole pass. -/
structure Visitor (A B A' B' ε σ : Type) where
  operand : σ → A → Option A'
  /-- The binding that stays, if it does, and what the body is visited with. -/
  binding : Name → B → ε → σ → Option (Option (Name × B') × ε × σ)

def bindIf {A B : Type} (kept : Option (Name × B)) (body : Pred A B) : Pred A B :=
  match kept with
  | some (x, val) => .bind x val body
  | none => body

section
variable {A B A' B' ε σ : Type}

def operands (f : A → Option A') : List A → Option (List A')
  | [] => some []
  | e :: args => (f e).bind fun first => (operands f args).map (first :: ·)

def Visitor.visit (V : Visitor A B A' B' ε σ) : Pred A B → ε → σ → Option (Pred A' B' × σ)
  | .true, _, s => some (.true, s)
  | .false, _, s => some (.false, s)
  | .matched, _, s => some (.matched, s)
  | .fail, _, s => some (.fail, s)
  | .call name args, _, s => (operands (V.operand s) args).map fun out => (.call name out, s)
  | .rel op l r, _, s => (V.operand s l).bind fun lhs => (V.operand s r).map fun rhs => (.rel op lhs rhs, s)
  | .cond test t f, env, s => (V.visit test env s).bind fun test => (V.visit t env test.2).bind fun t =>
    (V.visit f env t.2).map fun f => (.cond test.1 t.1 f.1, f.2)
  | .bind x val body, env, s => (V.binding x val env s).bind fun b =>
    (V.visit body b.2.1 b.2.2).map fun r => (bindIf b.1 r.1, r.2)

variable {V : Visitor A B A' B' ε σ}

theorem visit_cond {test t f : Pred A B} {env : ε} {s : σ} {r : Pred A' B' × σ}
    (done : V.visit (.cond test t f) env s = some r) :
    ∃ test' t' f', V.visit test env s = some test' ∧ V.visit t env test'.2 = some t' ∧
      V.visit f env t'.2 = some f' ∧ r = (.cond test'.1 t'.1 f'.1, f'.2) := by
  obtain ⟨test', tested, rest⟩ := bind_eq_some_iff.mp done
  obtain ⟨t', onTrue, last⟩ := bind_eq_some_iff.mp rest
  obtain ⟨f', onFalse, rfl⟩ := map_eq_some_iff.mp last
  exact ⟨test', t', f', tested, onTrue, onFalse, rfl⟩

theorem visit_bind {x : Name} {val : B} {body : Pred A B} {env : ε} {s : σ} {r : Pred A' B' × σ}
    (done : V.visit (.bind x val body) env s = some r) :
    ∃ b body', V.binding x val env s = some b ∧ V.visit body b.2.1 b.2.2 = some body' ∧
      r = (bindIf b.1 body'.1, body'.2) := by
  obtain ⟨b, bound, rest⟩ := bind_eq_some_iff.mp done
  obtain ⟨body', visited, rfl⟩ := map_eq_some_iff.mp rest
  exact ⟨b, body', bound, visited, rfl⟩

/-- The expression names each of its variables once, and all are still to come. -/
def Pending (F : Name → Prop) (e : Pred A B) : Prop := e.binders.Nodup ∧ ∀ x ∈ e.binders, F x

/-- Those of `F` that the expression does not name. -/
def after (F : Name → Prop) (e : Pred A B) (x : Name) : Prop := F x ∧ x ∉ e.binders

section
variable {F : Name → Prop} {test t f body : Pred A B} {x : Name} {val : B}

theorem Pending.of_test (pending : Pending F (.cond test t f)) : Pending F test := by
  obtain ⟨distinct, known⟩ := pending
  rw [Pred.binders, append_assoc, nodup_append] at distinct
  exact ⟨distinct.1, fun x member => known x (mem_append_left _ (mem_append_left _ member))⟩

theorem Pending.of_true (pending : Pending F (.cond test t f)) : Pending (after F test) t := by
  obtain ⟨distinct, known⟩ := pending
  rw [Pred.binders, nodup_append, nodup_append] at distinct
  refine ⟨distinct.1.2.1, fun x member => ⟨known x ?_, fun earlier => ?_⟩⟩
  · exact mem_append_left _ (mem_append_right _ member)
  · exact distinct.1.2.2 x earlier x member rfl

theorem Pending.of_false (pending : Pending F (.cond test t f)) : Pending (after (after F test) t) f := by
  obtain ⟨distinct, known⟩ := pending
  rw [Pred.binders, nodup_append] at distinct
  refine ⟨distinct.2.1, fun x member => ⟨⟨known x (mem_append_right _ member), ?_⟩, ?_⟩⟩
  · exact fun earlier => distinct.2.2 x (mem_append_left _ earlier) x member rfl
  · exact fun earlier => distinct.2.2 x (mem_append_right _ earlier) x member rfl

theorem Pending.of_body (pending : Pending F (.bind x val body)) : Pending (fun y => F y ∧ y ≠ x) body := by
  obtain ⟨distinct, known⟩ := pending
  obtain ⟨here, distinct⟩ := nodup_cons.mp distinct
  refine ⟨distinct, fun y member => ⟨known y (mem_cons_of_mem x member), ?_⟩⟩
  rintro rfl
  exact here member

theorem Pending.here (pending : Pending F (.bind x val body)) : F x := pending.2 x mem_cons_self

end

/-- What is known about the table, whatever is done with the names of `F`: a binding takes its own name out of
`F` and breaks nothing of this elsewhere. -/
structure Framed {W : Type} (V : Visitor A B A' B' ε σ) (inv : (Name → Prop) → W → ε → σ → Prop) : Prop where
  mono {F F' : Name → Prop} {w : W} {env : ε} {s : σ} :
    (∀ x, F' x → F x) → inv F w env s → inv F' w env s
  frame {F : Name → Prop} {w : W} {around env : ε} {s : σ} {x : Name} {val : B}
    {b : Option (Name × B') × ε × σ} :
    inv F w around s → F x → V.binding x val env s = some b → inv (fun y => F y ∧ y ≠ x) w around b.2.2

theorem Framed.visit {W : Type} {inv : (Name → Prop) → W → ε → σ → Prop} (framed : Framed V inv)
    {F : Name → Prop} {w : W} {around env : ε} {e : Pred A B} {s : σ} {r : Pred A' B' × σ}
    (known : inv F w around s) (pending : Pending F e) (done : V.visit e env s = some r) :
    inv (after F e) w around r.2 := by
  induction e generalizing F env s r with
  | true | false | matched | fail =>
    cases done
    exact framed.mono (fun x left => left.1) known
  | call name args =>
    obtain ⟨out, _, rfl⟩ := map_eq_some_iff.mp done
    exact framed.mono (fun x left => left.1) known
  | rel op l r =>
    obtain ⟨lhs, _, rest⟩ := bind_eq_some_iff.mp done
    obtain ⟨rhs, _, rfl⟩ := map_eq_some_iff.mp rest
    exact framed.mono (fun x left => left.1) known
  | cond test t f ihTest ihT ihF =>
    obtain ⟨test', t', f', tested, onTrue, onFalse, rfl⟩ := visit_cond done
    have first := ihTest known pending.of_test tested
    have last := ihF (ihT first pending.of_true onTrue) pending.of_false onFalse
    refine framed.mono (fun x left => ?_) last
    simpa [after, Pred.binders, and_assoc] using left
  | bind x val body ih =>
    obtain ⟨b, body', bound, visited, rfl⟩ := visit_bind done
    have last := ih (framed.frame known pending.here bound) pending.of_body visited
    refine framed.mono (fun y left => ?_) last
    simpa [after, Pred.binders, and_assoc] using left

section
variable [Operand A] [Operand B] [Operand A'] [Operand B'] {α : Type} {M : Meaning α}

/-- A visitor whose table ties the variables of the source to values of the target. -/
structure Sound (V : Visitor A B A' B' ε σ) (M : Meaning α)
    (inv : (Name → Prop) → Env α × Env α → ε → σ → Prop) : Prop extends Framed V inv where
  operand {F : Name → Prop} {ρ ρ' : Env α} {env : ε} {s : σ} {e : A} {e' : A'} {a : α} :
    inv F (ρ, ρ') env s → V.operand s e = some e' → Operand.eval M ρ e = some a → Operand.eval M ρ' e' = some a
  binding {F : Name → Prop} {ρ ρ' : Env α} {env : ε} {s : σ} {x : Name} {val : B} {a : α}
    {b : Option (Name × B') × ε × σ} :
    inv F (ρ, ρ') env s → F x → V.binding x val env s = some b → Operand.eval M ρ val = some a →
      ∃ ρ'', (∀ body : Pred A' B', (bindIf b.1 body).eval M ρ' = body.eval M ρ'') ∧
        inv (fun y => F y ∧ y ≠ x) (ρ.bind x a, ρ'') b.2.1 b.2.2

omit [Operand B] [Operand B'] in
theorem evalArgs_operands {ρ ρ' : Env α} {f : A → Option A'} {args : List A} {out : List A'} {values : List α}
    (each : ∀ e e' a, f e = some e' → Operand.eval M ρ e = some a → Operand.eval M ρ' e' = some a)
    (done : operands f args = some out) (known : evalArgs M ρ args = some values) :
    evalArgs M ρ' out = some values := by
  induction args generalizing out values with
  | nil =>
    cases done
    exact known
  | cons e args ih =>
    obtain ⟨first, here, rest⟩ := bind_eq_some_iff.mp done
    obtain ⟨others, tail, rfl⟩ := map_eq_some_iff.mp rest
    obtain ⟨a, value, more⟩ := bind_eq_some_iff.mp known
    obtain ⟨left, known', rfl⟩ := map_eq_some_iff.mp more
    rw [evalArgs, each e first a here value, bind_some, ih tail known', map_some]

theorem Sound.visit {inv : (Name → Prop) → Env α × Env α → ε → σ → Prop} (sound : Sound V M inv)
    {F : Name → Prop} {ρ ρ' : Env α} {env : ε} {e : Pred A B} {s : σ} {r : Pred A' B' × σ} {o : Outcome}
    (tied : inv F (ρ, ρ') env s) (pending : Pending F e) (done : V.visit e env s = some r)
    (known : e.eval M ρ = some o) : r.1.eval M ρ' = some o := by
  induction e generalizing F ρ ρ' env s r o with
  | true | false | matched | fail =>
    cases done
    exact known
  | call name args =>
    obtain ⟨out, visited, rfl⟩ := map_eq_some_iff.mp done
    obtain ⟨values, operands, rfl⟩ := map_eq_some_iff.mp known
    have same := evalArgs_operands (fun e e' a => sound.operand tied) visited operands
    rw [Pred.eval, same, map_some]
  | rel op l r =>
    obtain ⟨lhs, left, rest⟩ := bind_eq_some_iff.mp done
    obtain ⟨rhs, right, rfl⟩ := map_eq_some_iff.mp rest
    obtain ⟨a, first, rest⟩ := bind_eq_some_iff.mp known
    obtain ⟨b, second, rfl⟩ := map_eq_some_iff.mp rest
    rw [Pred.eval, sound.operand tied left first, sound.operand tied right second, bind_some, map_some]
  | cond test t f ihTest ihT ihF =>
    obtain ⟨test', t', f', tested, onTrue, onFalse, rfl⟩ := visit_cond done
    obtain ⟨decided, value, taken⟩ := bind_eq_some_iff.mp known
    have tied₁ := sound.toFramed.visit tied pending.of_test tested
    have tied₂ := sound.toFramed.visit tied₁ pending.of_true onTrue
    rw [Pred.eval, ihTest tied pending.of_test tested value, bind_some]
    exact Outcome.branch_mono (ihT tied₁ pending.of_true onTrue) (ihF tied₂ pending.of_false onFalse) taken
  | bind x val body ih =>
    obtain ⟨b, body', bound, visited, rfl⟩ := visit_bind done
    obtain ⟨a, value, rest⟩ := bind_eq_some_iff.mp known
    obtain ⟨ρ'', same, tied'⟩ := sound.binding tied pending.here bound value
    rw [same]
    exact ih tied' pending.of_body visited rest

/-- A visitor whose table ties the variables of the source to what is in scope in the target. -/
structure Closed (V : Visitor A B A' B' ε σ)
    (inv : (Name → Prop) → (Name → Prop) × (Name → Prop) → ε → σ → Prop) : Prop extends Framed V inv where
  operand {F S S' : Name → Prop} {env : ε} {s : σ} {e : A} :
    inv F (S, S') env s → (∀ x ∈ Operand.names e, S x) →
      ∃ e', V.operand s e = some e' ∧ ∀ x ∈ Operand.names e', S' x
  binding {F S S' : Name → Prop} {env : ε} {s : σ} {x : Name} {val : B} :
    inv F (S, S') env s → F x → (∀ y ∈ Operand.names val, S y) →
      ∃ b S'', V.binding x val env s = some b ∧
        (∀ body : Pred A' B', body.Scoped S'' → (bindIf b.1 body).Scoped S') ∧
        inv (fun y => F y ∧ y ≠ x) (fun y => y = x ∨ S y, S'') b.2.1 b.2.2

omit [Operand A] [Operand B] [Operand A'] [Operand B'] in
theorem operands_total {f : A → Option A'} {good : A' → Prop} {args : List A}
    (each : ∀ e ∈ args, ∃ e', f e = some e' ∧ good e') :
    ∃ out, operands f args = some out ∧ ∀ e' ∈ out, good e' := by
  induction args with
  | nil => exact ⟨[], rfl, forall_mem_nil _⟩
  | cons e args ih =>
    obtain ⟨first, here, holds⟩ := each e mem_cons_self
    obtain ⟨out, done, others⟩ := ih fun e member => each e (mem_cons_of_mem _ member)
    refine ⟨first :: out, ?_, forall_mem_cons.mpr ⟨holds, others⟩⟩
    rw [operands, here, bind_some, done, map_some]

/-- No assertion of the pass fails, and what comes out mentions what is in scope. -/
theorem Closed.visit {inv : (Name → Prop) → (Name → Prop) × (Name → Prop) → ε → σ → Prop}
    (closed : Closed V inv) {F S S' : Name → Prop} {env : ε} {e : Pred A B} {s : σ}
    (tied : inv F (S, S') env s) (pending : Pending F e) (inside : e.Scoped S) :
    ∃ r, V.visit e env s = some r ∧ r.1.Scoped S' := by
  induction e generalizing F S S' env s with
  | true | false | matched | fail => exact ⟨_, rfl, trivial⟩
  | call name args =>
    obtain ⟨out, done, names⟩ := operands_total fun e member => closed.operand tied (inside e member)
    refine ⟨(.call name out, s), ?_, names⟩
    rw [Visitor.visit, done, map_some]
  | rel op l r =>
    obtain ⟨lhs, left, lhsIn⟩ := closed.operand tied inside.1
    obtain ⟨rhs, right, rhsIn⟩ := closed.operand tied inside.2
    refine ⟨(.rel op lhs rhs, s), ?_, lhsIn, rhsIn⟩
    rw [Visitor.visit, left, bind_some, right, map_some]
  | cond test t f ihTest ihT ihF =>
    obtain ⟨test', tested, testIn⟩ := ihTest tied pending.of_test inside.1
    have tied₁ := closed.toFramed.visit tied pending.of_test tested
    obtain ⟨t', onTrue, tIn⟩ := ihT tied₁ pending.of_true inside.2.1
    have tied₂ := closed.toFramed.visit tied₁ pending.of_true onTrue
    obtain ⟨f', onFalse, fIn⟩ := ihF tied₂ pending.of_false inside.2.2
    refine ⟨(.cond test'.1 t'.1 f'.1, f'.2), ?_, testIn, tIn, fIn⟩
    rw [Visitor.visit, tested, bind_some, onTrue, bind_some, onFalse, map_some]
  | bind x val body ih =>
    obtain ⟨b, S'', bound, around, tied'⟩ := closed.binding tied pending.here inside.1
    obtain ⟨body', visited, bodyIn⟩ := ih tied' pending.of_body inside.2
    refine ⟨(bindIf b.1 body'.1, body'.2), ?_, around _ bodyIn⟩
    rw [Visitor.visit, bound, bind_some, visited, map_some]

end

theorem visit_binders (keeps : ∀ x val env s b, V.binding x val env s = some b → ∀ y ∈ b.1, y.1 = x)
    {e : Pred A B} {env : ε} {s : σ} {r : Pred A' B' × σ} (done : V.visit e env s = some r) :
    r.1.binders.Sublist e.binders := by
  induction e generalizing env s r with
  | true | false | matched | fail =>
    cases done
    exact .refl _
  | call name args =>
    obtain ⟨out, _, rfl⟩ := map_eq_some_iff.mp done
    exact .refl _
  | rel op l r =>
    obtain ⟨lhs, _, rest⟩ := bind_eq_some_iff.mp done
    obtain ⟨rhs, _, rfl⟩ := map_eq_some_iff.mp rest
    exact .refl _
  | cond test t f ihTest ihT ihF =>
    obtain ⟨test', t', f', tested, onTrue, onFalse, rfl⟩ := visit_cond done
    exact ((ihTest tested).append (ihT onTrue)).append (ihF onFalse)
  | bind x val body ih =>
    obtain ⟨b, body', bound, visited, rfl⟩ := visit_bind done
    have same := keeps x val env s b bound
    cases kept : b.1 with
    | none => exact (ih visited).cons x
    | some y =>
      rw [← same y kept]
      exact (ih visited).cons_cons y.1

end

end Pf

end MoonGen
