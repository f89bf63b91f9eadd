import MoonGen.Pf.Expr

namespace MoonGen

open List Option

namespace Pf

/-- What the optimiser leaves binds nothing. -/
abbrev Filter := Pred Arith Empty

/-- What follows an operand, with the counter of `fresh`. -/
abbrev Continuation (R : Type) := R → Nat → Anf × Nat

/-- The operation under the next name, and what follows. -/
def letFresh (val : Prim Atom) (k : Continuation Atom) (count : Nat) : Anf × Nat :=
  let result := Name.var (count + 1)
  let rest := k (.name result) (count + 1)
  (.bind result val rest.1, rest.2)

def lowerArith : Arith → Continuation Atom → Nat → Anf × Nat
  | .num n, k => k (.num n)
  | .name x, k => k (.name x)
  | .un op e, k => lowerArith e fun operand => letFresh (.un op operand) k
  | .bin op l r, k => lowerArith l fun lhs => lowerArith r fun rhs => letFresh (.bin op lhs rhs) k
  | .load pos size, k => lowerArith pos fun operand => letFresh (.load operand size) k

def lowerComparison (op : Relop) (l r : Arith) (k : Continuation Anf) : Nat → Anf × Nat :=
  lowerArith l fun lhs => lowerArith r fun rhs => k (.rel op lhs rhs)

def lowerArgs : List Arith → List Atom → Continuation (List Atom) → Nat → Anf × Nat
  | [], out, k => k out
  | e :: args, out, k => lowerArith e fun arg => lowerArgs args (out ++ [arg]) k

def lowerBool : Filter → Continuation Anf → Nat → Anf × Nat
  | .cond test t f, k => lowerBool test fun test count =>
    let t := lowerBool t Prod.mk count
    let f := lowerBool f Prod.mk t.2
    k (.cond test t.1 f.1) f.2
  | .true, k => k .true
  | .false, k => k .false
  | .matched, k => k .matched
  | .fail, k => k .fail
  | .call name args, k => lowerArgs args [] fun out => k (.call name out)
  | .rel op l r, k => lowerComparison op l r k

def lower (e : Filter) : Anf := (lowerBool e Prod.mk 0).1

/-- What a lowering puts around what follows it, what it gives to it, and the counter. -/
structure Emitted (R : Type) where
  binds : List (Name × Prim Atom)
  result : R
  count : Nat

/-- The lowering in direct style. -/
def Lowering (R : Type) := Nat → Emitted R

namespace Lowering

def pure {R : Type} (r : R) : Lowering R := fun count => ⟨[], r, count⟩

def bind {R R' : Type} (m : Lowering R) (f : R → Lowering R') : Lowering R' := fun count =>
  let rest := f (m count).result (m count).count
  ⟨(m count).binds ++ rest.binds, rest.result, rest.count⟩

def emit (val : Prim Atom) : Lowering Atom := fun count =>
  ⟨[(.var (count + 1), val)], .name (.var (count + 1)), count + 1⟩

end Lowering

/-- The operations around an expression. -/
def wrap (binds : List (Name × Prim Atom)) (body : Anf) : Anf := binds.foldr (fun b => .bind b.1 b.2) body

namespace Lowering

/-- The result with its own operations around it. -/
def close (m : Lowering Anf) : Lowering Anf := fun count =>
  ⟨[], wrap (m count).binds (m count).result, (m count).count⟩

/-- The lowering in front of a continuation. -/
def andThen {R : Type} (m : Lowering R) (k : Continuation R) : Nat → Anf × Nat := fun count =>
  let rest := k (m count).result (m count).count
  (wrap (m count).binds rest.1, rest.2)

variable {R R' : Type}

theorem pure_andThen {r : R} {k : Continuation R} : (pure r).andThen k = k r := rfl

theorem emit_andThen {val : Prim Atom} {k : Continuation Atom} : (emit val).andThen k = letFresh val k := rfl

theorem bind_andThen {m : Lowering R} {f : R → Lowering R'} {k : Continuation R'} :
    (m.bind f).andThen k = m.andThen fun r => (f r).andThen k := by
  funext count
  simp only [andThen, bind, wrap, foldr_append]

end Lowering

open Lowering in
def flattenArith : Arith → Lowering Atom
  | .num n => pure (.num n)
  | .name x => pure (.name x)
  | .un op e => (flattenArith e).bind fun operand => emit (.un op operand)
  | .bin op l r => (flattenArith l).bind fun lhs => (flattenArith r).bind fun rhs => emit (.bin op lhs rhs)
  | .load pos size => (flattenArith pos).bind fun operand => emit (.load operand size)

open Lowering in
def flattenArgs : List Arith → List Atom → Lowering (List Atom)
  | [], out => pure out
  | e :: args, out => (flattenArith e).bind fun arg => flattenArgs args (out ++ [arg])

open Lowering in
def flattenBool : Filter → Lowering Anf
  | .cond test t f => (flattenBool test).bind fun test => (flattenBool t).close.bind fun t =>
    (flattenBool f).close.bind fun f => pure (.cond test t f)
  | .true => pure .true
  | .false => pure .false
  | .matched => pure .matched
  | .fail => pure .fail
  | .call name args => (flattenArgs args []).bind fun out => pure (.call name out)
  | .rel op l r => (flattenArith l).bind fun lhs => (flattenArith r).bind fun rhs => pure (.rel op lhs rhs)

theorem lowerArith_eq (e : Arith) (k : Continuation Atom) : lowerArith e k = (flattenArith e).andThen k := by
  induction e generalizing k with
  | num n => rfl
  | name x => rfl
  | un op e ih =>
    simp only [lowerArith, flattenArith, ih, Lowering.bind_andThen, Lowering.emit_andThen]
  | bin op l r ihl ihr =>
    simp only [lowerArith, flattenArith, ihl, ihr, Lowering.bind_andThen, Lowering.emit_andThen]
  | load pos size ih =>
    simp only [lowerArith, flattenArith, ih, Lowering.bind_andThen, Lowering.emit_andThen]

theorem lowerArgs_eq (args : List Arith) (out : List Atom) (k : Continuation (List Atom)) :
    lowerArgs args out k = (flattenArgs args out).andThen k := by
  induction args generalizing out with
  | nil => rfl
  | cons e args ih => simp only [lowerArgs, flattenArgs, lowerArith_eq, ih, Lowering.bind_andThen]

/-- The continuations only build what direct style returns. -/
theorem lowerBool_eq (e : Filter) (k : Continuation Anf) : lowerBool e k = (flattenBool e).andThen k := by
  induction e generalizing k with
  | true | false | matched | fail => rfl
  | call name args => simp only [lowerBool, flattenBool, lowerArgs_eq, Lowering.bind_andThen, Lowering.pure_andThen]
  | rel op l r =>
    simp only [lowerBool, lowerComparison, flattenBool, lowerArith_eq, Lowering.bind_andThen, Lowering.pure_andThen]
  | cond test t f ihTest ihT ihF =>
    simp only [lowerBool, flattenBool, ihTest, ihT, ihF, Lowering.bind_andThen, Lowering.pure_andThen]
    rfl
  | bind x val body => exact val.elim

theorem lower_eq (e : Filter) : lower e = wrap (flattenBool e 0).binds (flattenBool e 0).result := by
  rw [lower, lowerBool_eq]
  rfl

theorem eval_wrap {α : Type} {M : Meaning α} {binds : List (Name × Prim Atom)} {body : Anf} {ρ : Env α} :
    (wrap binds body).eval M ρ = (bindAll M binds ρ).bind fun ρ' => body.eval M ρ' := by
  induction binds generalizing ρ with
  | nil => rfl
  | cons b binds ih =>
    rw [bindAll, Option.bind_assoc]
    exact Option.bind_congr fun a _ => ih

/-- The names above the counter are still to be given. -/
def Ahead {α : Type} (ρ : Env α) (count : Nat) : Prop := ∀ n, count < n → ρ (.var n) = none

theorem Ahead.mono {α : Type} {ρ : Env α} {count count' : Nat} (ahead : Ahead ρ count) (le : count ≤ count') :
    Ahead ρ count' := fun n above => ahead n (Nat.lt_of_le_of_lt le above)

namespace Lowering

variable {R R' α : Type} {M : Meaning α} {ρ : Env α}

/-- Whatever the counter, the operations can be done and `good` holds of the result after them. -/
def Sound (M : Meaning α) (m : Lowering R) (ρ : Env α) (good : R → Env α → Prop) : Prop :=
  ∀ count, Ahead ρ count → ∃ ρ', bindAll M (m count).binds ρ = some ρ' ∧ ρ.Le ρ' ∧ Ahead ρ' (m count).count ∧
    good (m count).result ρ'

theorem Sound.pure {r : R} {good : R → Env α → Prop} (holds : good r ρ) : Sound M (pure r) ρ good :=
  fun _ ahead => ⟨ρ, rfl, .refl ρ, ahead, holds⟩

theorem Sound.bind {m : Lowering R} {f : R → Lowering R'} {mid : R → Env α → Prop} {good : R' → Env α → Prop}
    (first : Sound M m ρ mid) (rest : ∀ r ρ', ρ.Le ρ' → mid r ρ' → Sound M (f r) ρ' good) :
    Sound M (m.bind f) ρ good := by
  intro count ahead
  obtain ⟨ρ₁, binds₁, le₁, ahead₁, holds₁⟩ := first count ahead
  obtain ⟨ρ₂, binds₂, le₂, ahead₂, holds₂⟩ := rest _ ρ₁ le₁ holds₁ _ ahead₁
  refine ⟨ρ₂, ?_, le₁.trans le₂, ahead₂, holds₂⟩
  rw [Lowering.bind, bindAll_append, binds₁, bind_some, binds₂]

theorem Sound.emit {val : Prim Atom} {a : α} (value : Operand.eval M ρ val = some a) :
    Sound M (emit val) ρ fun x ρ' => x.eval M ρ' = some a := by
  intro count ahead
  refine ⟨ρ.bind (.var (count + 1)) a, ?_, Environment.le_bind (ahead _ (Nat.lt_succ_self count)), ?_,
    Environment.bind_self⟩
  · rw [Lowering.emit, bindAll, value]
    rfl
  · intro n above
    have other : Name.var n ≠ .var (count + 1) := by
      intro same
      cases same
      exact Nat.lt_irrefl _ above
    rw [Environment.bind_of_ne other]
    exact ahead n (Nat.lt_of_succ_lt above)

theorem Sound.close {m : Lowering Anf} {e : Filter} (grows : ∀ count, count ≤ (m count).count)
    (sound : ∀ o, e.eval M ρ = some o → Sound M m ρ fun e' ρ' => e'.eval M ρ' = some o) :
    Sound M m.close ρ fun e' ρ' => ∀ o, e.eval M ρ = some o → e'.eval M ρ' = some o := by
  intro count ahead
  refine ⟨ρ, rfl, .refl ρ, ahead.mono (grows count), ?_⟩
  intro o known
  obtain ⟨ρ', binds, _, _, value⟩ := sound o known count ahead
  rw [Lowering.close, eval_wrap, binds, bind_some, value]

end Lowering

theorem flattenArith_grows (e : Arith) (count : Nat) : count ≤ (flattenArith e count).count := by
  induction e generalizing count with
  | num n => exact Nat.le_refl count
  | name x => exact Nat.le_refl count
  | un op e ih => exact Nat.le_succ_of_le (ih count)
  | bin op l r ihl ihr => exact Nat.le_succ_of_le (Nat.le_trans (ihl count) (ihr _))
  | load pos size ih => exact Nat.le_succ_of_le (ih count)

theorem flattenArgs_grows (args : List Arith) (out : List Atom) (count : Nat) :
    count ≤ (flattenArgs args out count).count := by
  induction args generalizing out count with
  | nil => exact Nat.le_refl count
  | cons e args ih => exact Nat.le_trans (flattenArith_grows e count) (ih _ _)

theorem flattenBool_grows (e : Filter) (count : Nat) : count ≤ (flattenBool e count).count := by
  induction e generalizing count with
  | true | false | matched | fail => exact Nat.le_refl count
  | call name args => exact flattenArgs_grows args [] count
  | rel op l r => exact Nat.le_trans (flattenArith_grows l count) (flattenArith_grows r _)
  | cond test t f ihTest ihT ihF => exact Nat.le_trans (ihTest count) (Nat.le_trans (ihT _) (ihF _))
  | bind x val body => exact val.elim

section
variable {α : Type} {M : Meaning α} {ρ : Env α}

theorem flattenArith_sound {e : Arith} {a : α} (known : e.eval M ρ = some a) :
    (flattenArith e).Sound M ρ fun x ρ' => x.eval M ρ' = some a := by
  induction e generalizing ρ a with
  | num n => exact .pure known
  | name x => exact .pure known
  | un op e ih =>
    obtain ⟨b, operand, rfl⟩ := map_eq_some_iff.mp known
    refine (ih operand).bind fun x ρ' _ value => .emit ?_
    show (x.eval M ρ').map (M.un op) = _
    rw [value, map_some]
  | bin op l r ihl ihr =>
    obtain ⟨b, left, rest⟩ := bind_eq_some_iff.mp known
    obtain ⟨c, right, found⟩ := bind_eq_some_iff.mp rest
    refine (ihl left).bind fun x ρ₁ le₁ first => ?_
    refine (ihr (Arith.eval_mono le₁ right)).bind fun y ρ₂ le₂ second => .emit ?_
    have kept : x.eval M ρ₂ = some b := Atom.eval_mono le₂ first
    show ((x.eval M ρ₂).bind fun a => (y.eval M ρ₂).bind (M.bin op a)) = _
    rw [kept, second, bind_some, bind_some, found]
  | load pos size ih =>
    obtain ⟨b, operand, found⟩ := bind_eq_some_iff.mp known
    refine (ih operand).bind fun x ρ' _ value => .emit ?_
    show (x.eval M ρ').bind (fun a => M.load a size) = _
    rw [value, bind_some, found]

theorem evalArgs_append {out args : List Atom} {before values : List α} (first : evalArgs M ρ out = some before)
    (rest : evalArgs M ρ args = some values) : evalArgs M ρ (out ++ args) = some (before ++ values) := by
  induction out generalizing before with
  | nil =>
    cases first
    exact rest
  | cons e out ih =>
    obtain ⟨a, value, later⟩ := bind_eq_some_iff.mp first
    obtain ⟨others, tail, rfl⟩ := map_eq_some_iff.mp later
    rw [cons_append, evalArgs, value, bind_some, ih tail, map_some, cons_append]

theorem flattenArgs_sound {args : List Arith} {out : List Atom} {before values : List α}
    (done : evalArgs M ρ out = some before) (known : evalArgs M ρ args = some values) :
    (flattenArgs args out).Sound M ρ fun atoms ρ' => evalArgs M ρ' atoms = some (before ++ values) := by
  induction args generalizing ρ out before values with
  | nil =>
    cases known
    rw [append_nil]
    exact .pure done
  | cons e args ih =>
    obtain ⟨a, value, later⟩ := bind_eq_some_iff.mp known
    obtain ⟨others, tail, rfl⟩ := map_eq_some_iff.mp later
    refine (flattenArith_sound value).bind fun x ρ' le first => ?_
    have single : evalArgs M ρ' [x] = some [a] := by
      show ((x.eval M ρ').bind fun a => some [a]) = _
      rw [first, bind_some]
    have same := ih (evalArgs_append (evalArgs_mono le done) single) (evalArgs_mono le tail)
    rwa [append_assoc] at same

theorem flattenBool_sound {e : Filter} {o : Outcome} (known : e.eval M ρ = some o) :
    (flattenBool e).Sound M ρ fun e' ρ' => e'.eval M ρ' = some o := by
  induction e generalizing ρ o with
  | true | false | matched | fail => exact .pure known
  | call name args =>
    obtain ⟨values, operands, rfl⟩ := map_eq_some_iff.mp known
    refine (flattenArgs_sound (show evalArgs M ρ ([] : List Atom) = some [] from rfl) operands).bind
      fun out ρ' _ value => .pure ?_
    rw [Pred.eval, value, map_some, nil_append]
  | rel op l r =>
    obtain ⟨a, left, rest⟩ := bind_eq_some_iff.mp known
    obtain ⟨b, right, rfl⟩ := map_eq_some_iff.mp rest
    refine (flattenArith_sound left).bind fun x ρ₁ le₁ first => ?_
    refine (flattenArith_sound (Arith.eval_mono le₁ right)).bind fun y ρ₂ le₂ second => .pure ?_
    have kept : x.eval M ρ₂ = some a := Atom.eval_mono le₂ first
    show ((x.eval M ρ₂).bind fun a => (y.eval M ρ₂).map fun b => Outcome.value (M.rel op a b)) = _
    rw [kept, second, bind_some, map_some]
  | cond test t f ihTest ihT ihF =>
    obtain ⟨r, tested, taken⟩ := bind_eq_some_iff.mp known
    refine (ihTest tested).bind fun test' ρ₁ le₁ value => ?_
    refine (Lowering.Sound.close (flattenBool_grows t) fun o => ihT).bind fun t' ρ₂ le₂ onTrue => ?_
    refine (Lowering.Sound.close (flattenBool_grows f) fun o => ihF).bind fun f' ρ₃ le₃ onFalse => .pure ?_
    rw [Pred.eval, Pred.eval_mono (le₂.trans le₃) value, bind_some]
    refine Outcome.branch_mono ?_ ?_ taken
    · exact fun reached => Pred.eval_mono le₃ (onTrue o (Pred.eval_mono le₁ reached))
    · exact fun reached => onFalse o (Pred.eval_mono (le₁.trans le₂) reached)
  | bind x val body => exact val.elim

/-- The operations are done in the order in which the filter does them, each under its own name. -/
theorem lower_sound {e : Filter} {o : Outcome} (ahead : Ahead ρ 0) (known : e.eval M ρ = some o) :
    (lower e).eval M ρ = some o := by
  obtain ⟨ρ', binds, _, _, value⟩ := flattenBool_sound known 0 ahead
  rw [lower_eq, eval_wrap, binds, bind_some, value]

end

/-- The names that the counter gives between two of its values. -/
def varsBetween (count count' : Nat) : List Name := (List.range' (count + 1) (count' - count)).map .var

theorem varsBetween_self (count : Nat) : varsBetween count count = [] := by
  rw [varsBetween, Nat.sub_self]
  rfl

theorem varsBetween_succ (count : Nat) : varsBetween count (count + 1) = [.var (count + 1)] := by
  rw [varsBetween, Nat.add_sub_cancel_left]
  rfl

theorem varsBetween_append {a b c : Nat} (first : a ≤ b) (second : b ≤ c) :
    varsBetween a b ++ varsBetween b c = varsBetween a c := by
  have start : b + 1 = a + 1 + 1 * (b - a) := by omega
  have length : c - a = (b - a) + (c - b) := by omega
  rw [varsBetween, varsBetween, varsBetween, ← map_append, start, range'_append, length]

theorem binders_wrap (binds : List (Name × Prim Atom)) (body : Anf) :
    (wrap binds body).binders = binds.map Prod.fst ++ body.binders := by
  induction binds with
  | nil => rfl
  | cons b binds ih => exact congrArg (b.1 :: ·) ih

theorem flattenArith_names (e : Arith) (count : Nat) :
    (flattenArith e count).binds.map Prod.fst = varsBetween count (flattenArith e count).count := by
  induction e generalizing count with
  | num n => exact (varsBetween_self count).symm
  | name x => exact (varsBetween_self count).symm
  | un op e ih =>
    simp only [flattenArith, Lowering.bind, Lowering.emit, map_append, ih, map_cons, map_nil]
    rw [← varsBetween_succ, varsBetween_append (flattenArith_grows e count) (Nat.le_succ _)]
  | bin op l r ihl ihr =>
    simp only [flattenArith, Lowering.bind, Lowering.emit, map_append, ihl, ihr, map_cons, map_nil]
    rw [← varsBetween_succ, varsBetween_append (flattenArith_grows r _) (Nat.le_succ _),
      varsBetween_append (flattenArith_grows l count) (Nat.le_succ_of_le (flattenArith_grows r _))]
  | load pos size ih =>
    simp only [flattenArith, Lowering.bind, Lowering.emit, map_append, ih, map_cons, map_nil]
    rw [← varsBetween_succ, varsBetween_append (flattenArith_grows pos count) (Nat.le_succ _)]

theorem flattenArgs_names (args : List Arith) (out : List Atom) (count : Nat) :
    (flattenArgs args out count).binds.map Prod.fst = varsBetween count (flattenArgs args out count).count := by
  induction args generalizing out count with
  | nil => exact (varsBetween_self count).symm
  | cons e args ih =>
    simp only [flattenArgs, Lowering.bind, map_append, ih, flattenArith_names]
    exact varsBetween_append (flattenArith_grows e count) (flattenArgs_grows args _ _)

theorem flattenBool_names (e : Filter) (count : Nat) :
    (wrap (flattenBool e count).binds (flattenBool e count).result).binders =
      varsBetween count (flattenBool e count).count := by
  induction e generalizing count with
  | true | false | matched | fail => exact (varsBetween_self count).symm
  | call name args =>
    simp only [flattenBool, Lowering.bind, Lowering.pure, append_nil, binders_wrap, Pred.binders, flattenArgs_names]
  | rel op l r =>
    simp only [flattenBool, Lowering.bind, Lowering.pure, append_nil, binders_wrap, Pred.binders,
      map_append, flattenArith_names]
    exact varsBetween_append (flattenArith_grows l count) (flattenArith_grows r _)
  | cond test t f ihTest ihT ihF =>
    simp only [flattenBool, Lowering.bind, Lowering.pure, Lowering.close, append_nil, binders_wrap,
      Pred.binders] at ihTest ihT ihF ⊢
    rw [ihT, ihF, ← append_assoc, ← append_assoc, ihTest,
      varsBetween_append (flattenBool_grows test count) (flattenBool_grows t _),
      varsBetween_append (Nat.le_trans (flattenBool_grows test count) (flattenBool_grows t _))
        (flattenBool_grows f _)]
  | bind x val body => exact val.elim

/-- The variables are `var1`, `var2`, … in the order of the text. -/
theorem lower_binders (e : Filter) : ∃ n, (lower e).binders = varsBetween 0 n := by
  rw [lower_eq]
  exact ⟨_, flattenBool_names e 0⟩

theorem scoped_wrap {S : Name → Prop} {binds : List (Name × Prim Atom)} {body : Anf}
    (operations : BindsScoped S binds) (inner : body.Scoped (extend S binds)) : (wrap binds body).Scoped S := by
  induction binds generalizing S with
  | nil => exact inner
  | cons b binds ih => exact ⟨operations.1, ih operations.2 inner⟩

namespace Lowering

variable {R R' : Type} {S : Name → Prop}

/-- Whatever the counter, the operations use what is in scope and `good` holds of the result in theirs. -/
def Closed (m : Lowering R) (S : Name → Prop) (good : R → (Name → Prop) → Prop) : Prop :=
  ∀ count, BindsScoped S (m count).binds ∧ good (m count).result (extend S (m count).binds)

theorem Closed.pure {r : R} {good : R → (Name → Prop) → Prop} (holds : good r S) : Closed (pure r) S good :=
  fun _ => ⟨trivial, holds⟩

theorem Closed.bind {m : Lowering R} {f : R → Lowering R'} {mid : R → (Name → Prop) → Prop}
    {good : R' → (Name → Prop) → Prop} (first : Closed m S mid)
    (rest : ∀ r S', (∀ x, S x → S' x) → mid r S' → Closed (f r) S' good) : Closed (m.bind f) S good := by
  intro count
  obtain ⟨scoped₁, holds₁⟩ := first count
  obtain ⟨inside₂, holds₂⟩ := rest _ _ (fun _ known => extend_iff.mpr (.inl known)) holds₁ (m count).count
  refine ⟨scoped₁.append inside₂, ?_⟩
  rw [Lowering.bind, extend_append]
  exact holds₂

theorem Closed.emit {val : Prim Atom} (names : ∀ x ∈ Operand.names val, S x) :
    Closed (emit val) S fun atom S' => ∀ x ∈ atom.names, S' x := by
  intro count
  refine ⟨⟨names, trivial⟩, ?_⟩
  intro x member
  exact .inl (mem_singleton.mp member)

theorem Closed.close {m : Lowering Anf} (closed : Closed m S fun e' S' => e'.Scoped S') :
    Closed m.close S fun e' S' => e'.Scoped S' :=
  fun count => ⟨trivial, scoped_wrap (closed count).1 (closed count).2⟩

end Lowering

section
variable {S : Name → Prop}

theorem flattenArith_closed {e : Arith} (names : ∀ x ∈ e.names, S x) :
    (flattenArith e).Closed S fun atom S' => ∀ x ∈ atom.names, S' x := by
  induction e generalizing S with
  | num n => exact .pure names
  | name x => exact .pure names
  | un op e ih =>
    refine (ih names).bind fun atom S' _ inScope => .emit ?_
    intro x member
    exact inScope x (by simpa [Operand.names, Prim.operands] using member)
  | bin op l r ihl ihr =>
    have left : ∀ x ∈ l.names, S x := fun x member => names x (mem_append_left _ member)
    have right : ∀ x ∈ r.names, S x := fun x member => names x (mem_append_right _ member)
    refine (ihl left).bind fun lhs S₁ le₁ lhsIn => ?_
    refine (ihr fun x member => le₁ x (right x member)).bind fun rhs S₂ le₂ rhsIn => .emit ?_
    intro x member
    have cases : x ∈ lhs.names ∨ x ∈ rhs.names := by simpa [Operand.names, Prim.operands] using member
    exact cases.elim (fun mentioned => le₂ x (lhsIn x mentioned)) (rhsIn x)
  | load pos size ih =>
    refine (ih names).bind fun atom S' _ inScope => .emit ?_
    intro x member
    exact inScope x (by simpa [Operand.names, Prim.operands] using member)

theorem flattenArgs_closed {args : List Arith} {out : List Atom} (done : ∀ e ∈ out, ∀ x ∈ e.names, S x)
    (names : ∀ e ∈ args, ∀ x ∈ e.names, S x) :
    (flattenArgs args out).Closed S fun atoms S' => ∀ e ∈ atoms, ∀ x ∈ e.names, S' x := by
  induction args generalizing S out with
  | nil => exact .pure done
  | cons e args ih =>
    refine (flattenArith_closed (names e mem_cons_self)).bind fun atom S' le inScope => ih ?_ ?_
    · intro e' member
      rcases mem_append.mp member with before | last
      · exact fun x mentioned => le x (done e' before x mentioned)
      · rw [mem_singleton.mp last]
        exact inScope
    · exact fun e' member x mentioned => le x (names e' (mem_cons_of_mem e member) x mentioned)

theorem flattenBool_closed {e : Filter} (inside : e.Scoped S) :
    (flattenBool e).Closed S fun e' S' => e'.Scoped S' := by
  induction e generalizing S with
  | true | false | matched | fail => exact .pure trivial
  | call name args =>
    have noneYet : ∀ e ∈ ([] : List Atom), ∀ x ∈ e.names, S x := forall_mem_nil _
    exact (flattenArgs_closed noneYet inside).bind fun out S' _ inScope => .pure inScope
  | rel op l r =>
    refine (flattenArith_closed inside.1).bind fun lhs S₁ le₁ lhsIn => ?_
    refine (flattenArith_closed fun x member => le₁ x (inside.2 x member)).bind fun rhs S₂ le₂ rhsIn => .pure ?_
    exact ⟨fun x mentioned => le₂ x (lhsIn x mentioned), rhsIn⟩
  | cond test t f ihTest ihT ihF =>
    refine (ihTest inside.1).bind fun test' S₁ le₁ testIn => ?_
    refine (ihT (inside.2.1.mono le₁)).close.bind fun t' S₂ le₂ tIn => ?_
    refine (ihF (inside.2.2.mono fun x known => le₂ x (le₁ x known))).close.bind fun f' S₃ le₃ fIn => .pure ?_
    exact ⟨testIn.mono fun x known => le₃ x (le₂ x known), tIn.mono le₃, fIn⟩
  | bind x val body => exact val.elim

theorem lower_scoped {e : Filter} (inside : e.Scoped S) : (lower e).Scoped S := by
  rw [lower_eq]
  exact scoped_wrap (flattenBool_closed inside 0).1 (flattenBool_closed inside 0).2

end

end Pf

end MoonGen
