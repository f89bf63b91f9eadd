import MoonGen.Lib.Environment

namespace MoonGen

open Option hiding or_assoc

namespace Pf

inductive Unop where
  | ntohs | ntohl | uint32 | int32
  deriving DecidableEq, Repr

inductive Binop where
  | add | sub | mul | mul64 | div | band | bor | bxor | lshift | rshift
  deriving DecidableEq, Repr

inductive Relop where
  | lt | le | eq | ne | ge | gt
  deriving DecidableEq, Repr

/-- The length of the packet, the variables `var1`, `var2`, … of the first pass and `v1`, `v2`, … of the
pass that numbers them again. -/
inductive Name where
  | len
  | var (n : Nat)
  | v (n : Nat)
  deriving DecidableEq, Repr

inductive Atom where
  | num (n : Int)
  | name (x : Name)
  deriving DecidableEq, Repr

/-- One operation. `load` is the operator `[]`, with its size in bytes. -/
inductive Prim (A : Type) where
  | un (op : Unop) (e : A)
  | bin (op : Binop) (l r : A)
  | load (pos : A) (size : Nat)
  deriving DecidableEq, Repr

inductive Arith where
  | num (n : Int)
  | name (x : Name)
  | un (op : Unop) (e : Arith)
  | bin (op : Binop) (l r : Arith)
  | load (pos : Arith) (size : Nat)
  deriving DecidableEq, Repr

/-- Logical expressions that compare `A`s and name `B`s. `matched`, `fail` and `call` end the filter. -/
inductive Pred (A B : Type) where
  | true
  | false
  | matched
  | fail
  | call (name : String) (args : List A)
  | rel (op : Relop) (l r : A)
  | cond (test t f : Pred A B)
  | bind (x : Name) (val : B) (body : Pred A B)
  deriving Repr

/-- Every operation has a name of its own. -/
abbrev Anf := Pred Atom (Prim Atom)

/-- Operations may stand where atoms do. -/
abbrev Inlined := Pred Arith Arith

/-- What the operators do to values of type `α`. A load may find nothing, and a division may have no value. -/
structure Meaning (α : Type) where
  num : Int → α
  un : Unop → α → α
  bin : Binop → α → α → Option α
  load : α → Nat → Option α
  rel : Relop → α → α → Bool
  call : String → List α → Bool

abbrev Env (α : Type) := Environment Name α

def Meaning.prim {α A : Type} (M : Meaning α) (value : A → Option α) : Prim A → Option α
  | .un op e => (value e).map (M.un op)
  | .bin op l r => (value l).bind fun a => (value r).bind (M.bin op a)
  | .load pos size => (value pos).bind fun a => M.load a size

def Prim.map {A B : Type} (f : A → B) : Prim A → Prim B
  | .un op e => .un op (f e)
  | .bin op l r => .bin op (f l) (f r)
  | .load pos size => .load (f pos) size

def Prim.operands {A : Type} : Prim A → List A
  | .un _ e => [e]
  | .bin _ l r => [l, r]
  | .load pos _ => [pos]

variable {α : Type}

theorem Meaning.prim_mono {A : Type} {M : Meaning α} {value value' : A → Option α} {p : Prim A} {a : α}
    (le : ∀ e a, value e = some a → value' e = some a) (known : M.prim value p = some a) :
    M.prim value' p = some a := by
  cases p with
  | un op e =>
    obtain ⟨b, operand, rfl⟩ := map_eq_some_iff.mp known
    rw [Meaning.prim, le e b operand, map_some]
  | bin op l r =>
    obtain ⟨b, left, rest⟩ := bind_eq_some_iff.mp known
    obtain ⟨c, right, found⟩ := bind_eq_some_iff.mp rest
    rw [Meaning.prim, le l b left, le r c right, bind_some, bind_some, found]
  | load pos size =>
    obtain ⟨b, operand, found⟩ := bind_eq_some_iff.mp known
    rw [Meaning.prim, le pos b operand, bind_some, found]

theorem Meaning.prim_map {A B : Type} {M : Meaning α} {value : B → Option α} {f : A → B} {p : Prim A} :
    M.prim value (p.map f) = M.prim (fun e => value (f e)) p := by
  cases p <;> rfl

theorem Prim.operands_map {A B : Type} {f : A → B} {p : Prim A} : (p.map f).operands = p.operands.map f := by
  cases p <;> rfl

/-- What expressions are made of: it has a value, if all that it reads is there, and it mentions names. -/
class Operand (A : Type) where
  eval {α : Type} : Meaning α → Env α → A → Option α
  names : A → List Name
  eval_mono {α : Type} {M : Meaning α} {ρ ρ' : Env α} {e : A} {a : α} :
    ρ.Le ρ' → eval M ρ e = some a → eval M ρ' e = some a

def Atom.eval {α : Type} (M : Meaning α) (ρ : Env α) : Atom → Option α
  | .num n => some (M.num n)
  | .name x => ρ x

def Atom.names : Atom → List Name
  | .num _ => []
  | .name x => [x]

theorem Atom.eval_mono {M : Meaning α} {ρ ρ' : Env α} {e : Atom} {a : α} (le : ρ.Le ρ')
    (known : e.eval M ρ = some a) : e.eval M ρ' = some a := by
  cases e with
  | num n => exact known
  | name x => exact le known

instance : Operand Atom where
  eval := Atom.eval
  names := Atom.names
  eval_mono := Atom.eval_mono

instance {A : Type} [Operand A] : Operand (Prim A) where
  eval M ρ := M.prim (Operand.eval M ρ)
  names p := p.operands.flatMap Operand.names
  eval_mono := fun le => Meaning.prim_mono fun _ _ => Operand.eval_mono le

def Arith.ofPrim : Prim Arith → Arith
  | .un op e => .un op e
  | .bin op l r => .bin op l r
  | .load pos size => .load pos size

def Arith.eval {α : Type} (M : Meaning α) (ρ : Env α) : Arith → Option α
  | .num n => some (M.num n)
  | .name x => ρ x
  | .un op e => (e.eval M ρ).map (M.un op)
  | .bin op l r => (l.eval M ρ).bind fun a => (r.eval M ρ).bind (M.bin op a)
  | .load pos size => (pos.eval M ρ).bind fun a => M.load a size

def Arith.names : Arith → List Name
  | .num _ => []
  | .name x => [x]
  | .un _ e => e.names
  | .bin _ l r => l.names ++ r.names
  | .load pos _ => pos.names

theorem Arith.eval_ofPrim {M : Meaning α} {ρ : Env α} {p : Prim Arith} :
    (Arith.ofPrim p).eval M ρ = M.prim (Arith.eval M ρ) p := by
  cases p <;> rfl

theorem Arith.names_ofPrim {p : Prim Arith} : (Arith.ofPrim p).names = p.operands.flatMap Arith.names := by
  cases p <;> simp [Arith.ofPrim, Arith.names, Prim.operands]

theorem Arith.eval_mono {M : Meaning α} {ρ ρ' : Env α} {e : Arith} {a : α}
    (le : ρ.Le ρ') (known : e.eval M ρ = some a) : e.eval M ρ' = some a := by
  induction e generalizing a with
  | num n => exact known
  | name x => exact le known
  | un op e ih =>
    obtain ⟨b, operand, rfl⟩ := map_eq_some_iff.mp known
    rw [Arith.eval, ih operand, map_some]
  | bin op l r ihl ihr =>
    obtain ⟨b, left, rest⟩ := bind_eq_some_iff.mp known
    obtain ⟨c, right, found⟩ := bind_eq_some_iff.mp rest
    rw [Arith.eval, ihl left, ihr right, bind_some, bind_some, found]
  | load pos size ih =>
    obtain ⟨b, operand, found⟩ := bind_eq_some_iff.mp known
    rw [Arith.eval, ih operand, bind_some, found]

instance : Operand Arith where
  eval := Arith.eval
  names := Arith.names
  eval_mono := Arith.eval_mono

instance : Operand Empty where
  eval _ _ e := e.elim
  names e := e.elim
  eval_mono := by
    intro α M ρ ρ' e
    exact e.elim

/-- A truth value for the expression around, or the result of the filter. -/
inductive Outcome where
  | value (b : Bool)
  | exit (b : Bool)
  deriving DecidableEq, Repr

def Outcome.bool : Outcome → Bool
  | .value b => b
  | .exit b => b

def Outcome.branch (o : Outcome) (t f : Option Outcome) : Option Outcome :=
  match o with
  | .value b => if b then t else f
  | .exit b => some (.exit b)

theorem Outcome.branch_mono {o r : Outcome} {t t' f f' : Option Outcome} (onTrue : t = some r → t' = some r)
    (onFalse : f = some r → f' = some r) (taken : o.branch t f = some r) : o.branch t' f' = some r := by
  cases o with
  | exit b => exact taken
  | value b =>
    cases b with
    | true => exact onTrue taken
    | false => exact onFalse taken

section Pred
variable {A B α : Type} [Operand A] [Operand B]

def evalArgs (M : Meaning α) (ρ : Env α) : List A → Option (List α)
  | [] => some []
  | e :: args => (Operand.eval M ρ e).bind fun a => (evalArgs M ρ args).map (a :: ·)

def Pred.eval (M : Meaning α) : Pred A B → Env α → Option Outcome
  | .true, _ => some (.value Bool.true)
  | .false, _ => some (.value Bool.false)
  | .matched, _ => some (.exit Bool.true)
  | .fail, _ => some (.exit Bool.false)
  | .call name args, ρ => (evalArgs M ρ args).map fun values => .exit (M.call name values)
  | .rel op l r, ρ =>
    (Operand.eval M ρ l).bind fun a => (Operand.eval M ρ r).map fun b => .value (M.rel op a b)
  | .cond test t f, ρ => (test.eval M ρ).bind fun o => o.branch (t.eval M ρ) (f.eval M ρ)
  | .bind x val body, ρ => (Operand.eval M ρ val).bind fun a => body.eval M (ρ.bind x a)

/-- The variables in the order of the text. -/
def Pred.binders : Pred A B → List Name
  | .cond test t f => test.binders ++ t.binders ++ f.binders
  | .bind x _ body => x :: body.binders
  | _ => []

/-- Each name that is mentioned is one of `S` or bound around. -/
def Pred.Scoped : (Name → Prop) → Pred A B → Prop
  | S, .call _ args => ∀ e ∈ args, ∀ x ∈ Operand.names e, S x
  | S, .rel _ l r => (∀ x ∈ Operand.names l, S x) ∧ ∀ x ∈ Operand.names r, S x
  | S, .cond test t f => test.Scoped S ∧ t.Scoped S ∧ f.Scoped S
  | S, .bind x val body => (∀ y ∈ Operand.names val, S y) ∧ body.Scoped fun y => y = x ∨ S y
  | _, _ => True

variable {M : Meaning α} {ρ ρ' : Env α}

omit [Operand B] in
theorem evalArgs_mono {args : List A} {values : List α} (le : ρ.Le ρ')
    (known : evalArgs M ρ args = some values) : evalArgs M ρ' args = some values := by
  induction args generalizing values with
  | nil => exact known
  | cons e args ih =>
    obtain ⟨a, first, rest⟩ := bind_eq_some_iff.mp known
    obtain ⟨others, tail, rfl⟩ := map_eq_some_iff.mp rest
    rw [evalArgs, Operand.eval_mono le first, bind_some, ih tail, map_some]

theorem Pred.eval_mono {e : Pred A B} {o : Outcome} (le : ρ.Le ρ') (known : e.eval M ρ = some o) :
    e.eval M ρ' = some o := by
  induction e generalizing ρ ρ' o with
  | true | false | matched | fail => exact known
  | call name args =>
    obtain ⟨values, operands, rfl⟩ := map_eq_some_iff.mp known
    rw [Pred.eval, evalArgs_mono le operands, map_some]
  | rel op l r =>
    obtain ⟨a, left, rest⟩ := bind_eq_some_iff.mp known
    obtain ⟨b, right, rfl⟩ := map_eq_some_iff.mp rest
    rw [Pred.eval, Operand.eval_mono le left, Operand.eval_mono le right, bind_some, map_some]
  | cond test t f ihTest ihT ihF =>
    obtain ⟨r, tested, taken⟩ := bind_eq_some_iff.mp known
    rw [Pred.eval, ihTest le tested, bind_some]
    exact Outcome.branch_mono (ihT le) (ihF le) taken
  | bind x val body ih =>
    obtain ⟨a, value, rest⟩ := bind_eq_some_iff.mp known
    rw [Pred.eval, Operand.eval_mono le value, bind_some]
    exact ih (le.bind x a) rest

theorem Pred.Scoped.mono {e : Pred A B} {S S' : Name → Prop} (le : ∀ x, S x → S' x)
    (inside : e.Scoped S) : e.Scoped S' := by
  induction e generalizing S S' with
  | true | false | matched | fail => trivial
  | call name args => exact fun e member x mentioned => le x (inside e member x mentioned)
  | rel op l r => exact ⟨fun x mentioned => le x (inside.1 x mentioned), fun x mentioned => le x (inside.2 x mentioned)⟩
  | cond test t f ihTest ihT ihF => exact ⟨ihTest le inside.1, ihT le inside.2.1, ihF le inside.2.2⟩
  | bind x val body ih =>
    exact ⟨fun y mentioned => le y (inside.1 y mentioned), ih (fun y known => known.imp_right (le y)) inside.2⟩

end Pred

section Bindings
variable {B α : Type} [Operand B] {M : Meaning α}

/-- The values of the names, one after the other. -/
def bindAll (M : Meaning α) : List (Name × B) → Env α → Option (Env α)
  | [], ρ => some ρ
  | b :: binds, ρ => (Operand.eval M ρ b.2).bind fun a => bindAll M binds (ρ.bind b.1 a)

variable {first rest : List (Name × B)}

theorem bindAll_append {ρ : Env α} :
    bindAll M (first ++ rest) ρ = (bindAll M first ρ).bind fun ρ' => bindAll M rest ρ' := by
  induction first generalizing ρ with
  | nil => rfl
  | cons b first ih =>
    rw [List.cons_append, bindAll, bindAll, Option.bind_assoc]
    exact Option.bind_congr fun a _ => ih

/-- The names of `S` and those that are bound. -/
def extend (S : Name → Prop) (binds : List (Name × B)) : Name → Prop :=
  binds.foldl (fun S b y => y = b.1 ∨ S y) S

omit [Operand B] in
theorem extend_append {S : Name → Prop} : extend S (first ++ rest) = extend (extend S first) rest :=
  List.foldl_append

omit [Operand B] in
theorem extend_iff {S : Name → Prop} {binds : List (Name × B)} {x : Name} :
    extend S binds x ↔ S x ∨ x ∈ binds.map Prod.fst := by
  induction binds generalizing S with
  | nil => simp [extend]
  | cons b binds ih =>
    rw [extend, List.foldl_cons, ← extend, ih, List.map_cons, List.mem_cons, or_assoc, or_left_comm]

/-- Each value uses the names of `S` and those bound before it. -/
def BindsScoped : (Name → Prop) → List (Name × B) → Prop
  | _, [] => True
  | S, b :: binds => (∀ y ∈ Operand.names b.2, S y) ∧ BindsScoped (fun y => y = b.1 ∨ S y) binds

theorem BindsScoped.append {S : Name → Prop}
    (start : BindsScoped S first) (more : BindsScoped (extend S first) rest) : BindsScoped S (first ++ rest) := by
  induction first generalizing S with
  | nil => exact more
  | cons b first ih => exact ⟨start.1, ih start.2 more⟩

end Bindings

end Pf

end MoonGen
