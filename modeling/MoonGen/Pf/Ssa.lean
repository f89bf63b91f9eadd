import MoonGen.Lib.DepthFirst
import MoonGen.Pf.Expr

namespace MoonGen

open List Option

namespace Pf

open FlowGraph

inductive Test where
  | const (b : Bool)
  | rel (op : Relop) (l r : Arith)
  deriving DecidableEq, Repr

inductive Result where
  | test (t : Test)
  | call (name : String) (args : List Arith)
  deriving DecidableEq, Repr

/-- How a block ends. The labels `L1`, `L2`, … are their numbers. -/
inductive Control where
  | ret (r : Result)
  | branch (test : Test) (kt kf : Nat)
  | goto (k : Nat)
  deriving DecidableEq, Repr

structure Block where
  bindings : List (Name × Arith)
  control : Control
  deriving DecidableEq, Repr

abbrev Blocks := Environment Nat Block

/-- The table of the blocks with its keys, as `pairs` lists them. -/
structure Ssa where
  start : Nat
  labels : List Nat
  blocks : Blocks

/-- The label counter and the finished blocks. -/
structure Compiling where
  count : Nat
  blocks : Blocks

/-- The expression goes to the end of the block, which has some bindings already. -/
def compileBool : Inlined → Nat → List (Name × Arith) → Nat → Nat → Compiling → Compiling
  | .cond test t f, label, bindings, kt, kf, s =>
    let kthen := s.count + 1
    let kelse := s.count + 2
    let s := compileBool test label bindings kthen kelse ⟨s.count + 2, s.blocks⟩
    let s := compileBool t kthen [] kt kf s
    compileBool f kelse [] kt kf s
  | .bind name value body, label, bindings, kt, kf, s =>
    compileBool body label (bindings ++ [(name, value)]) kt kf s
  | .true, label, bindings, kt, _, s => ⟨s.count, s.blocks.bind label ⟨bindings, .goto kt⟩⟩
  | .false, label, bindings, _, kf, s => ⟨s.count, s.blocks.bind label ⟨bindings, .goto kf⟩⟩
  | .matched, label, bindings, _, _, s => ⟨s.count, s.blocks.bind label ⟨bindings, .ret (.test (.const .true))⟩⟩
  | .fail, label, bindings, _, _, s => ⟨s.count, s.blocks.bind label ⟨bindings, .ret (.test (.const .false))⟩⟩
  | .call name args, label, bindings, _, _, s => ⟨s.count, s.blocks.bind label ⟨bindings, .ret (.call name args)⟩⟩
  | .rel op l r, label, bindings, kt, kf, s => ⟨s.count, s.blocks.bind label ⟨bindings, .branch (.rel op l r) kt kf⟩⟩

def Ssa.lower (e : Inlined) : Ssa :=
  let s := compileBool e 1 [] 2 3 ⟨3, .empty⟩
  ⟨1, List.range' 1 s.count, (s.blocks.bind 2 ⟨[], .ret (.test (.const true))⟩).bind 3 ⟨[], .ret (.test (.const false))⟩⟩

section Meaning
variable {α : Type}

def Test.eval (M : Meaning α) (ρ : Env α) : Test → Option Bool
  | .const b => some b
  | .rel op l r => (l.eval M ρ).bind fun a => (r.eval M ρ).map fun b => M.rel op a b

def Result.eval (M : Meaning α) (ρ : Env α) : Result → Option Bool
  | .test t => t.eval M ρ
  | .call name args => (evalArgs M ρ args).map (M.call name)

/-- The result of the filter or the next block. -/
def Control.next (M : Meaning α) (ρ : Env α) : Control → Option (Bool ⊕ Nat)
  | .ret r => (r.eval M ρ).map .inl
  | .branch test kt kf => (test.eval M ρ).map fun c => .inr (if c then kt else kf)
  | .goto k => some (.inr k)

/-- From the block the filter comes to its result in so many jumps. -/
inductive Runs (M : Meaning α) (T : Blocks) : Nat → Env α → Nat → Bool → Prop
  | done {ρ ρ' : Env α} {l : Nat} {B : Block} {b : Bool} (here : T l = some B)
      (bound : bindAll M B.bindings ρ = some ρ') (last : B.control.next M ρ' = some (.inl b)) : Runs M T 0 ρ l b
  | step {n : Nat} {ρ ρ' : Env α} {l k : Nat} {B : Block} {b : Bool} (here : T l = some B)
      (bound : bindAll M B.bindings ρ = some ρ') (jump : B.control.next M ρ' = some (.inr k))
      (rest : Runs M T n ρ' k b) : Runs M T (n + 1) ρ l b

end Meaning

theorem compileBool_count (e : Inlined) (label : Nat) (bindings : List (Name × Arith)) (kt kf : Nat) (s : Compiling) :
    s.count ≤ (compileBool e label bindings kt kf s).count := by
  induction e generalizing label bindings kt kf s with
  | true | false | matched | fail | call | rel => exact Nat.le_refl _
  | bind x val body ih => exact ih ..
  | cond test t f ihTest ihT ihF =>
    have first := ihTest label bindings (s.count + 1) (s.count + 2) ⟨s.count + 2, s.blocks⟩
    have second := ihT (s.count + 1) [] kt kf (compileBool test label bindings (s.count + 1) (s.count + 2)
      ⟨s.count + 2, s.blocks⟩)
    exact Nat.le_trans (Nat.le_of_succ_le (Nat.le_of_succ_le first)) (Nat.le_trans second (ihF ..))

/-- The states between the parts of a conditional. -/
theorem compileBool_cond (test t f : Inlined) (label : Nat) (bindings : List (Name × Arith)) (kt kf : Nat)
    (s : Compiling) :
    ∃ s₀ s₁ s₂ s₃, (s₀.count = s.count + 2 ∧ s₀.blocks = s.blocks) ∧
      compileBool test label bindings (s.count + 1) (s.count + 2) s₀ = s₁ ∧
      compileBool t (s.count + 1) [] kt kf s₁ = s₂ ∧ compileBool f (s.count + 2) [] kt kf s₂ = s₃ ∧
      compileBool (.cond test t f) label bindings kt kf s = s₃ ∧
      s₀.count ≤ s₁.count ∧ s₁.count ≤ s₂.count ∧ s₂.count ≤ s₃.count :=
  ⟨⟨s.count + 2, s.blocks⟩, _, _, _, ⟨rfl, rfl⟩, rfl, rfl, rfl, rfl, compileBool_count .., compileBool_count ..,
    compileBool_count ..⟩

/-- The labels a compilation writes: its block and those it makes. -/
def Written (label : Nat) (s s' : Compiling) (l : Nat) : Prop := l = label ∨ s.count < l ∧ l ≤ s'.count

section Compile
variable {T : Blocks} {e : Inlined} {label kt kf : Nat} {bindings : List (Name × Arith)} {s s' : Compiling}

theorem compileBool_frame {l : Nat} (done : compileBool e label bindings kt kf s = s') (other : ¬Written label s s' l) :
    s'.blocks l = s.blocks l := by
  induction e generalizing label bindings kt kf s s' with
  | true | false | matched | fail | call | rel =>
    subst done
    exact Environment.bind_of_ne fun same => other (.inl same)
  | bind x val body ih => exact ih done other
  | cond test t f ihTest ihT ihF =>
    obtain ⟨s₀, s₁, s₂, s₃, ⟨count₀, blocks₀⟩, tested, onTrue, onFalse, whole, _, _, _⟩ :=
      compileBool_cond test t f label bindings kt kf s
    obtain rfl : s₃ = s' := whole.symm.trans done
    simp only [Written] at other ihTest ihT ihF
    rw [ihF onFalse (by omega), ihT onTrue (by omega), ihTest tested (by omega), blocks₀]

/-- The table has what the compilation has written. -/
def Fits (T : Blocks) (label : Nat) (s s' : Compiling) : Prop := ∀ l, Written label s s' l → T l = s'.blocks l

theorem Fits.here {count : Nat} {B : Block} (fits : Fits T label s ⟨count, s.blocks.bind label B⟩) : T label = some B :=
  (fits label (.inl rfl)).trans Environment.bind_self

theorem compileBool_parts {test t f : Inlined} (done : compileBool (.cond test t f) label bindings kt kf s = s')
    (fits : Fits T label s s') (old : label ≤ s.count) :
    ∃ s₀ s₁ s₂, s₀.count = s.count + 2 ∧ (s₀.count ≤ s₁.count ∧ s₁.count ≤ s₂.count ∧ s₂.count ≤ s'.count) ∧
      (compileBool test label bindings (s.count + 1) (s.count + 2) s₀ = s₁ ∧ Fits T label s₀ s₁) ∧
      (compileBool t (s.count + 1) [] kt kf s₁ = s₂ ∧ Fits T (s.count + 1) s₁ s₂) ∧
      (compileBool f (s.count + 2) [] kt kf s₂ = s' ∧ Fits T (s.count + 2) s₂ s') := by
  obtain ⟨s₀, s₁, s₂, s₃, ⟨count₀, _⟩, tested, onTrue, onFalse, whole, le₁, le₂, le₃⟩ :=
    compileBool_cond test t f label bindings kt kf s
  obtain rfl : s₃ = s' := whole.symm.trans done
  refine ⟨s₀, s₁, s₂, count₀, ⟨le₁, le₂, le₃⟩, ⟨tested, ?_⟩, ⟨onTrue, ?_⟩, ⟨onFalse, ?_⟩⟩
  all_goals
    intro l written
    simp only [Fits, Written] at written fits
    rw [fits l (by omega)]
  · rw [compileBool_frame onFalse (by simp only [Written]; omega),
      compileBool_frame onTrue (by simp only [Written]; omega)]
  · rw [compileBool_frame onFalse (by simp only [Written]; omega)]

end Compile

theorem Ssa.lower_fits (e : Inlined) : Fits (lower e).blocks 1 ⟨3, .empty⟩ (compileBool e 1 [] 2 3 ⟨3, .empty⟩) := by
  intro l written
  have others : l ≠ 3 ∧ l ≠ 2 := by
    simp only [Written] at written
    omega
  exact (Environment.bind_of_ne others.1).trans (Environment.bind_of_ne others.2)

theorem Ssa.lower_accept (e : Inlined) : (lower e).blocks 2 = some ⟨[], .ret (.test (.const true))⟩ := rfl

theorem Ssa.lower_reject (e : Inlined) : (lower e).blocks 3 = some ⟨[], .ret (.test (.const false))⟩ := rfl

section Runs
variable {α : Type} {M : Meaning α} {T : Blocks}

/-- More is bound, but only some of the names. -/
structure Extends (names : List Name) (ρ ρ' : Env α) : Prop where
  le : ρ.Le ρ'
  others : ∀ x, x ∉ names → ρ' x = ρ x

theorem Extends.refl (names : List Name) (ρ : Env α) : Extends names ρ ρ := ⟨.refl ρ, fun _ _ => rfl⟩

theorem Extends.trans {first rest names : List Name} {ρ ρ' ρ'' : Env α} (start : Extends first ρ ρ')
    (more : Extends rest ρ' ρ'') (covered : ∀ x, x ∈ first ∨ x ∈ rest → x ∈ names) : Extends names ρ ρ'' := by
  refine ⟨start.le.trans more.le, fun x outside => ?_⟩
  rw [more.others x fun member => outside (covered x (.inr member)),
    start.others x fun member => outside (covered x (.inl member))]

theorem Extends.bind {names : List Name} {ρ ρ' : Env α} {x : Name} {a : α} (unbound : ρ x = none)
    (more : Extends names (ρ.bind x a) ρ') : Extends (x :: names) ρ ρ' := by
  have first : Extends [x] ρ (ρ.bind x a) :=
    ⟨Environment.le_bind unbound, fun y other => Environment.bind_of_ne fun same => other (mem_singleton.mpr same)⟩
  refine first.trans more fun y member => ?_
  rw [mem_cons, ← mem_singleton]
  exact member

/-- What comes of the filter once the expression has come out so: an exit is the result, a truth value goes
on at one of the two labels. -/
def Leads (M : Meaning α) (T : Blocks) (kt kf : Nat) (names : List Name) (ρ : Env α) (b : Bool) : Outcome → Prop
  | .exit c => c = b
  | .value c => ∀ ρ', Extends names ρ ρ' → ∃ n, Runs M T n ρ' (if c then kt else kf) b

theorem compileBool_runs {e : Inlined} {label kt kf : Nat} {bindings : List (Name × Arith)} {s s' : Compiling}
    (done : compileBool e label bindings kt kf s = s') (fits : Fits T label s s') (old : label ≤ s.count)
    {ρ₀ ρ : Env α} (start : bindAll M bindings ρ₀ = some ρ) (distinct : e.binders.Nodup)
    (unbound : ∀ x ∈ e.binders, ρ x = none) {o : Outcome} (known : e.eval M ρ = some o) {b : Bool}
    (next : Leads M T kt kf e.binders ρ b o) : ∃ n, Runs M T n ρ₀ label b := by
  induction e generalizing label bindings kt kf s s' ρ₀ ρ o with
  | true | false =>
    cases known
    obtain ⟨n, rest⟩ := next ρ (.refl _ ρ)
    subst done
    exact ⟨n + 1, .step fits.here start rfl rest⟩
  | matched | fail =>
    cases known
    obtain rfl := next
    subst done
    exact ⟨0, .done fits.here start rfl⟩
  | call name args =>
    obtain ⟨values, operands, rfl⟩ := map_eq_some_iff.mp known
    obtain rfl := next
    subst done
    refine ⟨0, .done fits.here start ?_⟩
    simp only [Control.next, Result.eval, operands, map_some]
  | rel op l r =>
    obtain ⟨a, left, rest⟩ := bind_eq_some_iff.mp known
    obtain ⟨c, right, rfl⟩ := map_eq_some_iff.mp rest
    obtain ⟨n, rest⟩ := next ρ (.refl _ ρ)
    subst done
    refine ⟨n + 1, .step fits.here start ?_ rest⟩
    replace left : l.eval M ρ = some a := left
    replace right : r.eval M ρ = some c := right
    simp only [Control.next, Test.eval, left, right, bind_some, map_some]
  | bind x val body ih =>
    obtain ⟨a, value, rest⟩ := bind_eq_some_iff.mp known
    obtain ⟨outside, distinct⟩ := nodup_cons.mp distinct
    have start' : bindAll M (bindings ++ [(x, val)]) ρ₀ = some (ρ.bind x a) := by
      rw [bindAll_append, start, bind_some, bindAll, value]
      rfl
    refine ih done fits old start' distinct ?_ rest ?_
    · intro y member
      have other : y ≠ x := fun same => outside (same ▸ member)
      rw [Environment.bind_of_ne other]
      exact unbound y (mem_cons_of_mem x member)
    · cases o with
      | exit c => exact next
      | value c => exact fun ρ' more => next ρ' (more.bind (unbound x mem_cons_self))
  | cond test t f ihTest ihT ihF =>
    obtain ⟨s₀, s₁, s₂, count₀, _, ⟨tested, fits₁⟩, ⟨onTrue, fits₂⟩, ⟨onFalse, fits₃⟩⟩ :=
      compileBool_parts done fits old
    obtain ⟨r, value, taken⟩ := bind_eq_some_iff.mp known
    simp only [Pred.binders, nodup_append, mem_append] at distinct unbound
    obtain ⟨⟨distinct₁, distinct₂, apart₁⟩, distinct₃, apart₂⟩ := distinct
    refine ihTest tested fits₁ (by omega) start distinct₁ (fun x member => unbound x (.inl (.inl member))) value ?_
    cases r with
    | exit c =>
      cases taken
      exact next
    | value c =>
      intro ρ₁ more₁
      -- what the part that is taken extends, the whole expression extends
      have leads {names : List Name} (part : ∀ x ∈ names, x ∈ (Pred.cond test t f).binders) :
          Leads M T kt kf names ρ₁ b o := by
        cases o with
        | exit c => exact next
        | value c =>
          refine fun ρ₂ more₂ => next ρ₂ (more₁.trans more₂ fun x member => member.elim (fun first => ?_) (part x))
          exact mem_append_left _ (mem_append_left _ first)
      cases c with
      | true =>
        refine ihT onTrue fits₂ (by omega) (show bindAll M [] ρ₁ = some ρ₁ from rfl) distinct₂ (fun x member => ?_)
          (Pred.eval_mono more₁.le taken) (leads fun x member => mem_append_left _ (mem_append_right _ member))
        rw [more₁.others x fun earlier => apart₁ x earlier x member rfl]
        exact unbound x (.inl (.inr member))
      | false =>
        refine ihF onFalse fits₃ (by omega) (show bindAll M [] ρ₁ = some ρ₁ from rfl) distinct₃ (fun x member => ?_)
          (Pred.eval_mono more₁.le taken) (leads fun x member => mem_append_right _ member)
        rw [more₁.others x fun earlier => apart₂ x (.inl earlier) x member rfl]
        exact unbound x (.inr member)

/-- On every packet on which the expression has a value, the blocks come to the same result. -/
theorem Ssa.lower_runs {e : Inlined} {ρ : Env α} {o : Outcome} (distinct : e.binders.Nodup)
    (unbound : ∀ x ∈ e.binders, ρ x = none) (known : e.eval M ρ = some o) :
    ∃ n, Runs M (lower e).blocks n ρ (lower e).start o.bool := by
  refine compileBool_runs rfl (lower_fits e) (by decide) (show bindAll M [] ρ = some ρ from rfl) distinct unbound known ?_
  cases o with
  | exit c => rfl
  | value c =>
    intro ρ' _
    cases c with
    | true => exact ⟨0, .done (lower_accept e) rfl rfl⟩
    | false => exact ⟨0, .done (lower_reject e) rfl rfl⟩

end Runs

def Test.names : Test → List Name
  | .const _ => []
  | .rel _ l r => l.names ++ r.names

def Result.names : Result → List Name
  | .test t => t.names
  | .call _ args => args.flatMap Arith.names

def Control.names : Control → List Name
  | .ret r => r.names
  | .branch test _ _ => test.names
  | .goto _ => []

def Control.targets : Control → List Nat
  | .ret _ => []
  | .branch _ kt kf => [kt, kf]
  | .goto k => [k]

theorem Control.next_inl {α : Type} {M : Meaning α} {ρ : Env α} {c : Control} {b : Bool}
    (last : c.next M ρ = some (.inl b)) : ∃ r, c = .ret r ∧ r.eval M ρ = some b := by
  cases c with
  | ret r =>
    obtain ⟨_, value, same⟩ := map_eq_some_iff.mp last
    cases same
    exact ⟨r, rfl, value⟩
  | branch test kt kf =>
    obtain ⟨_, _, same⟩ := map_eq_some_iff.mp last
    cases same
  | goto k => cases last

theorem Control.next_inr {α : Type} {M : Meaning α} {ρ : Env α} {c : Control} {k : Nat}
    (jump : c.next M ρ = some (.inr k)) :
    c = .goto k ∨ ∃ test kt kf v, c = .branch test kt kf ∧ test.eval M ρ = some v ∧ k = if v then kt else kf := by
  cases c with
  | ret r =>
    obtain ⟨_, _, same⟩ := map_eq_some_iff.mp jump
    cases same
  | branch test kt kf =>
    obtain ⟨v, value, same⟩ := map_eq_some_iff.mp jump
    cases same
    exact .inr ⟨test, kt, kf, v, rfl, value, rfl⟩
  | goto k' =>
    cases jump
    exact .inl rfl

theorem Control.mem_targets_of_next {α : Type} {M : Meaning α} {ρ : Env α} {c : Control} {k : Nat}
    (jump : c.next M ρ = some (.inr k)) : k ∈ c.targets := by
  rcases next_inr jump with rfl | ⟨_, _, _, v, rfl, _, rfl⟩
  · exact mem_cons_self
  · cases v <;> simp [targets]

def Block.names (B : Block) : List Name := B.bindings.map Prod.fst

def Block.Scoped (S : Name → Prop) (B : Block) : Prop :=
  BindsScoped S B.bindings ∧ ∀ x ∈ B.control.names, extend S B.bindings x

/-- Every path from the block ends, at blocks of the table throughout, and uses what it has bound. -/
inductive Sealed (T : Blocks) : (Name → Prop) → Nat → Prop
  | mk {S : Name → Prop} {l : Nat} {B : Block} (here : T l = some B) (inside : B.Scoped S)
      (next : ∀ k ∈ B.control.targets, Sealed T (extend S B.bindings) k) : Sealed T S l

/-- The blocks that satisfy `P` bind each name once. -/
structure BindOnce (T : Blocks) (P : Nat → Prop) : Prop where
  within : ∀ l B, P l → T l = some B → B.names.Nodup
  across : ∀ l m B C x, P l → P m → T l = some B → T m = some C → x ∈ B.names → x ∈ C.names → l = m

theorem BindOnce.mono {T : Blocks} {P Q : Nat → Prop} (once : BindOnce T P) (part : ∀ l, Q l → P l) : BindOnce T Q :=
  ⟨fun l B member => once.within l B (part l member), fun l m B C x first second =>
    once.across l m B C x (part l first) (part m second)⟩

theorem BindOnce.union {T : Blocks} {P Q : Nat → Prop} (first : BindOnce T P) (second : BindOnce T Q)
    (apart : ∀ l m B C x, P l → Q m → T l = some B → T m = some C → x ∈ B.names → x ∉ C.names) :
    BindOnce T fun l => P l ∨ Q l := by
  refine ⟨fun l B member => member.elim (first.within l B) (second.within l B), ?_⟩
  rintro l m B C x (inP | inQ) (inP' | inQ') here there member member'
  · exact first.across l m B C x inP inP' here there member member'
  · exact absurd member' (apart l m B C x inP inQ' here there member)
  · exact absurd member (apart m l C B x inP' inQ there here member')
  · exact second.across l m B C x inQ inQ' here there member member'

theorem Sealed.leaf {T : Blocks} {S : Name → Prop} {l kt kf : Nat} {B : Block} (here : T l = some B)
    (inside : B.Scoped S)
    (targets : B.control.targets ⊆ [kt, kf])
    (next : Sealed T (extend S B.bindings) kt ∧ Sealed T (extend S B.bindings) kf) : Sealed T S l := by
  refine .mk here inside fun k member => ?_
  rcases mem_cons.mp (targets member) with rfl | last
  · exact next.1
  · rw [mem_singleton.mp last]
    exact next.2

section Compile
variable {T : Blocks} {e : Inlined} {label kt kf : Nat} {bindings : List (Name × Arith)} {s s' : Compiling}
  (done : compileBool e label bindings kt kf s = s') (fits : Fits T label s s') (old : label ≤ s.count)

include done fits old

theorem compileBool_sealed {S : Name → Prop} (before : BindsScoped S bindings) (inside : e.Scoped (extend S bindings))
    (next : ∀ S', (∀ x, extend S bindings x → S' x) → Sealed T S' kt ∧ Sealed T S' kf) : Sealed T S label := by
  induction e generalizing label bindings kt kf s s' S with
  | true | false | matched | fail =>
    subst done
    exact .leaf fits.here ⟨before, forall_mem_nil _⟩ (by simp [Control.targets])
      (next _ fun _ known => known)
  | call name args =>
    subst done
    refine .leaf fits.here ⟨before, fun x member => ?_⟩ (nil_subset _) (next _ fun _ known => known)
    obtain ⟨e, argument, mentioned⟩ := mem_flatMap.mp member
    exact inside e argument x mentioned
  | rel op l r =>
    subst done
    refine .leaf fits.here ⟨before, fun x member => ?_⟩ (List.Subset.refl _) (next _ fun _ known => known)
    exact (mem_append.mp member).elim (inside.1 x) (inside.2 x)
  | bind x val body ih =>
    have same : extend S (bindings ++ [(x, val)]) = fun y => y = x ∨ extend S bindings y := extend_append
    refine ih done fits old (before.append ⟨inside.1, trivial⟩) (same ▸ inside.2) fun S' le => next S' fun y known => ?_
    refine le y ?_
    rw [same]
    exact .inr known
  | cond test t f ihTest ihT ihF =>
    obtain ⟨s₀, s₁, s₂, count₀, _, ⟨tested, fits₁⟩, ⟨onTrue, fits₂⟩, ⟨onFalse, fits₃⟩⟩ :=
      compileBool_parts done fits old
    refine ihTest tested fits₁ (by omega) before inside.1 fun S' le => ⟨?_, ?_⟩
    · refine ihT onTrue fits₂ (by omega) (S := S') trivial (inside.2.1.mono le) fun S'' le' => ?_
      exact next S'' fun x known => le' x (le x known)
    · refine ihF onFalse fits₃ (by omega) (S := S') trivial (inside.2.2.mono le) fun S'' le' => ?_
      exact next S'' fun x known => le' x (le x known)

theorem compileBool_names {l : Nat} {B : Block} {x : Name} (written : Written label s s' l) (here : T l = some B)
    (member : x ∈ B.names) : x ∈ bindings.map Prod.fst ++ e.binders := by
  induction e generalizing label bindings kt kf s s' with
  | true | false | matched | fail | call | rel =>
    subst done
    obtain rfl : l = label := written.resolve_right fun between => absurd between.1 (Nat.not_lt.mpr between.2)
    rw [fits.here] at here
    cases here
    exact mem_append_left _ member
  | bind x' val body ih =>
    have inside := ih done fits old written
    rwa [map_append, append_assoc] at inside
  | cond test t f ihTest ihT ihF =>
    obtain ⟨s₀, s₁, s₂, count₀, ⟨le₁, le₂, le₃⟩, ⟨tested, fits₁⟩, ⟨onTrue, fits₂⟩, ⟨onFalse, fits₃⟩⟩ :=
      compileBool_parts done fits old
    have part : Written label s₀ s₁ l ∨ Written (s.count + 1) s₁ s₂ l ∨ Written (s.count + 2) s₂ s' l := by
      simp only [Written] at written ⊢
      omega
    rw [Pred.binders, ← append_assoc, ← append_assoc]
    rcases part with first | second | third
    · exact mem_append_left _ (mem_append_left _ (ihTest tested fits₁ (by omega) first))
    · exact mem_append_left _ (mem_append_right _ (ihT onTrue fits₂ (by omega) second))
    · exact mem_append_right _ (ihF onFalse fits₃ (by omega) third)

theorem compileBool_once (distinct : (bindings.map Prod.fst ++ e.binders).Nodup) : BindOnce T (Written label s s') := by
  induction e generalizing label bindings kt kf s s' with
  | true | false | matched | fail | call | rel =>
    subst done
    have only : ∀ l, Written label s ⟨s.count, s.blocks⟩ l → l = label := fun l written =>
      written.resolve_right fun between => absurd between.1 (Nat.not_lt.mpr between.2)
    refine ⟨fun l B written here => ?_, fun l m B C x first second _ _ _ _ => (only l first).trans (only m second).symm⟩
    obtain rfl := only l written
    rw [fits.here] at here
    cases here
    exact (nodup_append.mp distinct).1
  | bind x val body ih =>
    refine ih done fits old ?_
    rw [map_append, append_assoc]
    exact distinct
  | cond test t f ihTest ihT ihF =>
    obtain ⟨s₀, s₁, s₂, count₀, ⟨le₁, le₂, le₃⟩, ⟨tested, fits₁⟩, ⟨onTrue, fits₂⟩, ⟨onFalse, fits₃⟩⟩ :=
      compileBool_parts done fits old
    rw [Pred.binders, ← append_assoc, ← append_assoc] at distinct
    obtain ⟨front, distinct₃, apart₃⟩ := nodup_append.mp distinct
    obtain ⟨distinct₁, distinct₂, apart₂⟩ := nodup_append.mp front
    have once₁ := ihTest tested fits₁ (by omega) distinct₁
    have once₂ := ihT onTrue fits₂ (by omega) distinct₂
    have once₃ := ihF onFalse fits₃ (by omega) distinct₃
    -- a name belongs to one of the three parts, and so does each block that binds it
    have names₁ {l B x} := compileBool_names (l := l) (B := B) (x := x) tested fits₁ (by omega)
    have names₂ {l B x} := compileBool_names (l := l) (B := B) (x := x) onTrue fits₂ (by omega)
    have names₃ {l B x} := compileBool_names (l := l) (B := B) (x := x) onFalse fits₃ (by omega)
    refine ((once₁.union once₂ ?_).union once₃ ?_).mono fun l written => ?_
    · intro l m B C x first second here there member member'
      exact apart₂ x (names₁ first here member) x (names₂ second there member') rfl
    · rintro l m B C x (first | second) third here there member member'
      · exact apart₃ x (mem_append_left _ (names₁ first here member)) x (names₃ third there member') rfl
      · exact apart₃ x (mem_append_right _ (names₂ second here member)) x (names₃ third there member') rfl
    · simp only [Written] at written ⊢
      omega

end Compile

theorem Ssa.lower_sealed {e : Inlined} {S : Name → Prop} (inside : e.Scoped S) :
    Sealed (lower e).blocks S (lower e).start := by
  refine compileBool_sealed rfl (lower_fits e) (by decide) trivial inside fun S' _ => ⟨?_, ?_⟩
  · refine .mk (lower_accept e) ⟨trivial, fun x member => ?_⟩ fun k member => ?_ <;> cases member
  · refine .mk (lower_reject e) ⟨trivial, fun x member => ?_⟩ fun k member => ?_ <;> cases member

theorem Ssa.lower_cases {e : Inlined} {l : Nat} {B : Block} (here : (lower e).blocks l = some B) :
    Written 1 ⟨3, .empty⟩ (compileBool e 1 [] 2 3 ⟨3, .empty⟩) l ∨ (l = 2 ∨ l = 3) ∧ B.names = [] := by
  rcases Environment.bind_cases here with ⟨third, rfl⟩ | ⟨_, here⟩
  · exact .inr ⟨.inr third, rfl⟩
  rcases Environment.bind_cases here with ⟨second, rfl⟩ | ⟨_, here⟩
  · exact .inr ⟨.inl second, rfl⟩
  by_cases written : Written 1 ⟨3, .empty⟩ (compileBool e 1 [] 2 3 ⟨3, .empty⟩) l
  · exact .inl written
  · rw [compileBool_frame rfl written] at here
    cases here

theorem Ssa.lower_once {e : Inlined} (distinct : e.binders.Nodup) (P : Nat → Prop) : BindOnce (lower e).blocks P := by
  have once := compileBool_once rfl (lower_fits e) (by decide) distinct
  refine ⟨fun l B _ here => ?_, fun l m B C x _ _ here there member member' => ?_⟩
  · rcases lower_cases here with written | ⟨_, empty⟩
    · exact once.within l B written here
    · rw [empty]
      exact nodup_nil
  · rcases lower_cases here with written | ⟨_, empty⟩
    · rcases lower_cases there with written' | ⟨_, empty⟩
      · exact once.across l m B C x written written' here there member member'
      · rw [empty] at member'
        cases member'
    · rw [empty] at member
      cases member

/-- The blocks and where they go on. -/
def Blocks.graph (T : Blocks) : FlowGraph Nat := fun l => (T l).map fun B => B.control.targets

theorem Blocks.edge_iff {T : Blocks} {l k : Nat} : Edge T.graph l k ↔ ∃ B, T l = some B ∧ k ∈ B.control.targets := by
  constructor
  · rintro ⟨ks, node, member⟩
    obtain ⟨B, here, rfl⟩ := map_eq_some_iff.mp node
    exact ⟨B, here, member⟩
  · rintro ⟨B, here, member⟩
    exact ⟨_, by rw [graph, here, map_some], member⟩

section
variable {T : Blocks} {l k kt kf : Nat} {B : Block} {test : Test}

theorem Blocks.edge_of_goto (here : T l = some B) (control : B.control = .goto k) : Edge T.graph l k :=
  edge_iff.mpr ⟨B, here, control ▸ mem_cons_self⟩

theorem Blocks.mem_targets (here : T l = some B) (edge : Edge T.graph l k) : k ∈ B.control.targets := by
  obtain ⟨B', here', member⟩ := edge_iff.mp edge
  rw [here] at here'
  cases here'
  exact member

end

/-- The block can be come to from the start. -/
abbrev Ssa.Reached (p : Ssa) (l : Nat) : Prop := Reach p.blocks.graph p.start l

theorem Sealed.finite {T : Blocks} {S : Name → Prop} {l : Nat} (closed : Sealed T S l) : Finite T.graph l := by
  induction closed with
  | mk here _ _ ih => exact .mk (by rw [Blocks.graph, here, map_some]) ih

/-- What all passes over the blocks keep: paths end and use what they have bound, and what can be reached binds
each name once. -/
structure Ssa.WellFormed (p : Ssa) : Prop where
  keys : ∀ l B, p.blocks l = some B → l ∈ p.labels
  closed : Sealed p.blocks (· = .len) p.start
  once : BindOnce p.blocks p.Reached
  others : ∀ l B, p.Reached l → p.blocks l = some B → .len ∉ B.names

theorem Ssa.lower_wellFormed {e : Inlined} (inside : e.Scoped (· = .len)) (distinct : e.binders.Nodup)
    (others : .len ∉ e.binders) : (lower e).WellFormed where
  keys := by
    intro l B here
    have grows := compileBool_count e 1 [] 2 3 ⟨3, .empty⟩
    have bound : 1 ≤ l ∧ l ≤ (compileBool e 1 [] 2 3 ⟨3, .empty⟩).count := by
      rcases lower_cases here with (rfl | ⟨above, below⟩) | ⟨rfl | rfl, _⟩
      · exact ⟨Nat.le_refl 1, Nat.le_trans (by decide) grows⟩
      · exact ⟨Nat.le_of_lt (Nat.lt_of_le_of_lt (by decide) above), below⟩
      · exact ⟨by decide, Nat.le_trans (by decide) grows⟩
      · exact ⟨by decide, grows⟩
    rw [lower, mem_range'_1]
    omega
  closed := lower_sealed inside
  once := lower_once distinct _
  others := by
    intro l B _ here member
    rcases lower_cases here with written | ⟨_, empty⟩
    · exact others (compileBool_names rfl (lower_fits e) (by decide) written here member)
    · rw [empty] at member
      cases member

end Pf

end MoonGen
