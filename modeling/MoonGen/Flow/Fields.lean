import Mathlib.Data.Set.Card
import MoonGen.Lib.LuaPattern
import MoonGen.Lib.LuaTable
import MoonGen.Namespace.Store

namespace MoonGen

open LuaPattern LuaTable Option
open List hiding take

/-- What the fields of packets are looked up in: the setters `_aliases` and
`proto[pkt].metatype`, and `v[1] and dependencies[v[1]]` for a table. -/
structure FieldLibrary (T S D : Type) where
  aliases : List Char → Option S
  metatype : List Char → Option (List Char → Option S)
  dependency : T → Option D

inductive FieldRaise
  | indexNil
  | assertion (message : List Char)

/-- What a field is set to: a function with what it returns when it is called first, or
another value. -/
inductive FieldValue (N T F : Type)
  | function (func : F) (first : Option (LuaValue N T))
  | value (v : LuaValue N T)

variable {N T F S D : Type}

def FieldLibrary.findSetter (lib : FieldLibrary T S D) (pkt var : List Char) : Except FieldRaise (Option S) :=
  match lib.aliases (pkt ++ var) with
  | some setter => .ok (some setter)
  | none =>
    match lib.metatype pkt with
    | none => .error .indexNil
    | some metatype => .ok (metatype ("set".toList ++ var))

structure Dynvar (N T F S : Type) where
  pkt : List Char
  var : List Char
  func : F
  applyfn : S
  value : Option (LuaValue N T)

def Dynvar.field (dv : Dynvar N T F S) : List Char := dv.pkt ++ dv.var

def newDynvar (lib : FieldLibrary T S D) (pkt var : List Char) (func : F) (first : Option (LuaValue N T)) :
    Except FieldRaise (Dynvar N T F S) := do
  match ← lib.findSetter pkt var with
  | none => throw (.assertion (pkt ++ var))
  | some applyfn => return { pkt, var, func, applyfn, value := first }

/-- The test `not v`. -/
def falsy (v : Option (LuaValue N T)) : Bool := !v.any LuaValue.truthy

/-- The dynamic variables of a packet: the array part of the table, `index` and `count`. -/
structure Dynvars (N T F S : Type) where
  array : List (Dynvar N T F S)
  index : Table (List Char) (Dynvar N T F S)
  count : Nat

namespace Dynvars

def new : Dynvars N T F S := { array := [], index := fun _ => none, count := 0 }

def addDv (self : Dynvars N T F S) (index : List Char) (dv : Dynvar N T F S) : Dynvars N T F S where
  array := self.array ++ [dv]
  index := assign self.index index (some dv)
  count := self.count + 1

def add (self : Dynvars N T F S) (lib : FieldLibrary T S D) (pkt var : List Char) (func : F)
    (first : Option (LuaValue N T)) : Except FieldRaise (Dynvar N T F S × Dynvars N T F S) := do
  let dv ← newDynvar lib pkt var func first
  return (dv, self.addDv (pkt ++ var) dv)

/-- One turn of the loop over the variables of another packet. -/
def inheritDv (fillTbl : Table (List Char) (LuaValue N T)) (self : Dynvars N T F S)
    (entry : List Char × Dynvar N T F S) : Dynvars N T F S :=
  let ftIndex := entry.2.field
  if (self.index entry.1).isNone && falsy (fillTbl ftIndex) then self.addDv entry.1 entry.2 else self

/-- The loop over the variables of another packet in the order in which `pairs` visits them. -/
def inherit (self : Dynvars N T F S) (other : List (List Char × Dynvar N T F S))
    (fillTbl : Table (List Char) (LuaValue N T)) : Dynvars N T F S :=
  other.foldl (inheritDv fillTbl) self

end Dynvars

structure Depvar (T D : Type) where
  dep : Option D
  tbl : T

/-- A packet of the configuration with the values of its fields, its dependencies and its
dynamic variables. -/
structure FlowPacket (N T F S D : Type) where
  fillTbl : Table (List Char) (LuaValue N T)
  depvars : Table (List Char) (Depvar T D)
  dynvars : Dynvars N T F S

/-- An error for the error handler: a format and the field for it. -/
structure FieldError where
  format : String
  field : List Char

/-- The parts of `^([%l%d]+)(%u.*)$`. -/
def fieldParts (i : List Char) : Option (List Char × List Char) :=
  match matchWhole [.plus fun c => c.isLower || c.isDigit, .one Char.isUpper, .star any] i with
  | some [pkt, capital, rest] => some (pkt, capital ++ rest)
  | _ => none

/-- The fields of a packet in the order in which `pairs` visits them. -/
abbrev FieldTable (N T F : Type) := List (List Char × FieldValue N T F)

namespace FlowPacket

def empty : FlowPacket N T F S D := { fillTbl := fun _ => none, depvars := fun _ => none, dynvars := .new }

/-- One turn of the loop of `Packet.new`. -/
def newField (lib : FieldLibrary T S D) (self : FlowPacket N T F S D) (log : List FieldError) (i : List Char)
    (v : FieldValue N T F) : Except FieldRaise (FlowPacket N T F S D × List FieldError) :=
  match fieldParts i with
  | some (pkt, var) =>
    match v with
    | .function func first => do
      let (dv, dynvars) ← self.dynvars.add lib pkt var func first
      return ({ self with dynvars, fillTbl := assign self.fillTbl i dv.value }, log)
    | .value (.table t) =>
      let ft := lib.dependency t
      let log := if ft.isSome then log else log ++ [⟨"Invalid table passed to field '%s'.", i⟩]
      .ok ({ self with depvars := assign self.depvars i (some { dep := ft, tbl := t }),
                       fillTbl := assign self.fillTbl i (some (.boolean true)) }, log)
    | .value v => .ok ({ self with fillTbl := assign self.fillTbl i (some v) }, log)
  | none => .ok (self, log ++ [⟨"Invalid packet field %q. Format is 'layerField' (e.g. ip4Dst).", i⟩])

def newLoop (lib : FieldLibrary T S D) (self : FlowPacket N T F S D) (log : List FieldError) :
    FieldTable N T F → Except FieldRaise (FlowPacket N T F S D × List FieldError)
  | [] => .ok (self, log)
  | (i, v) :: tbl => do
    let (self, log) ← self.newField lib log i v
    newLoop lib self log tbl

def new (lib : FieldLibrary T S D) (tbl : FieldTable N T F) :
    Except FieldRaise (FlowPacket N T F S D × List FieldError) :=
  newLoop lib empty [] tbl

/-- The entries of another packet in the orders in which the loops of `inherit` visit them. -/
structure Visits (N T F S D : Type) where
  dynvars : List (List Char × Dynvar N T F S)
  depvars : List (List Char × Depvar T D)
  fillTbl : List (List Char × LuaValue N T)

def Visits.Of (visits : Visits N T F S D) (other : FlowPacket N T F S D) : Prop :=
  Pairs other.dynvars.index visits.dynvars ∧ Pairs other.depvars visits.depvars ∧ Pairs other.fillTbl visits.fillTbl

def inherit (self : FlowPacket N T F S D) (other : Option (Visits N T F S D)) : FlowPacket N T F S D :=
  match other with
  | none => self
  | some other =>
    { dynvars := self.dynvars.inherit other.dynvars self.fillTbl
      depvars := other.depvars.foldl
        (take fun i _ own => own.isNone && falsy (self.fillTbl i)) self.depvars
      fillTbl := other.fillTbl.foldl (take fun _ _ own => falsy own) self.fillTbl }

end FlowPacket

/-- The value that a table of fields gives a field. -/
def defined (tbl : FieldTable N T F) (i : List Char) : Option (FieldValue N T F) :=
  if (fieldParts i).isSome then tbl.lookup i else none

/-- The value of the nearest packet of a chain that defines a field. -/
def nearest (chain : List (FieldTable N T F)) (i : List Char) : Option (FieldValue N T F) :=
  chain.findSome? fun tbl => defined tbl i

/-- Packets combined by `inherit`, with the tables they were made of, the child's first. -/
inductive Combined (lib : FieldLibrary T S D) : List (FieldTable N T F) → FlowPacket N T F S D → Prop
  | new {tbl : FieldTable N T F} {p : FlowPacket N T F S D} {log : List FieldError} :
      (tbl.map Prod.fst).Nodup → FlowPacket.new lib tbl = .ok (p, log) → Combined lib [tbl] p
  | alone {chain : List (FieldTable N T F)} {p : FlowPacket N T F S D} :
      Combined lib chain p → Combined lib chain (p.inherit none)
  | inherit {chain above : List (FieldTable N T F)} {p q : FlowPacket N T F S D}
      {visits : FlowPacket.Visits N T F S D} :
      Combined lib chain p → Combined lib above q → visits.Of q →
        Combined lib (chain ++ above) (p.inherit (some visits))

/-- The value, or the first value of the function, is neither `nil` nor `false`. -/
def FieldValue.truthy : FieldValue N T F → Bool
  | .function _ first => !falsy first
  | .value v => v.truthy

def FieldsTruthy (tbl : FieldTable N T F) : Prop := ∀ field ∈ tbl, field.2.truthy = true

/-- A packet defines a field by a dynamic variable, by a dependency, or by a constant that
neither of them stands behind. -/
def FlowPacket.Defines (p : FlowPacket N T F S D) (i : List Char) : FieldValue N T F → Prop
  | .function func first => ∃ dv ∈ p.dynvars.array, dv.field = i ∧ dv.func = func ∧ dv.value = first
  | .value (.table t) => ∃ dv, p.depvars i = some dv ∧ dv.tbl = t
  | .value v => p.fillTbl i = some v ∧ (∀ dv ∈ p.dynvars.array, dv.field ≠ i) ∧ p.depvars i = none

/-- What a packet is filled with for a field. -/
def FieldValue.fill : FieldValue N T F → Option (LuaValue N T)
  | .function _ first => first
  | .value (.table _) => some (.boolean true)
  | .value v => some v

/-- The dependency that a packet keeps for a field. -/
def FieldValue.depvar (lib : FieldLibrary T S D) : FieldValue N T F → Option (Depvar T D)
  | .value (.table t) => some { dep := lib.dependency t, tbl := t }
  | _ => none

/-- The array and the index hold the same variables, one for a field. -/
structure Dynvars.WellFormed (dvs : Dynvars N T F S) : Prop where
  fields : (dvs.array.map Dynvar.field).Nodup
  index : ∀ i dv, dvs.index i = some dv ↔ dv ∈ dvs.array ∧ dv.field = i
  count : dvs.array.length = dvs.count

/-- What the three tables of a packet hold for a field with some definition. -/
inductive FieldState (lib : FieldLibrary T S D) (i : List Char) : Option (FieldValue N T F) →
    Option (LuaValue N T) → Option (Dynvar N T F S) → Option (Depvar T D) → Prop
  | absent : FieldState lib i none none none none
  | function {func : F} {first : Option (LuaValue N T)} {dv : Dynvar N T F S} (own : dv.field = i)
      (made : dv.func = func ∧ dv.value = first) (truthy : falsy first = false) :
      FieldState lib i (some (.function func first)) first (some dv) none
  | table (t : T) :
      FieldState lib i (some (.value (.table t))) (some (.boolean true)) none
        (some { dep := lib.dependency t, tbl := t })
  | constant {v : LuaValue N T} (plain : ∀ t, v ≠ .table t) (truthy : v.truthy = true) :
      FieldState lib i (some (.value v)) (some v) none none

/-- The tables of a packet hold the given definitions and no others. -/
structure FlowPacket.Represents (lib : FieldLibrary T S D) (p : FlowPacket N T F S D)
    (entry : List Char → Option (FieldValue N T F)) : Prop where
  state : ∀ i, FieldState lib i (entry i) (p.fillTbl i) (p.dynvars.index i) (p.depvars i)
  dynvars : p.dynvars.WellFormed

namespace Dynvars

variable {dvs : Dynvars N T F S}

theorem wellFormed_new : (new : Dynvars N T F S).WellFormed :=
  ⟨nodup_nil, fun _ _ => ⟨nofun, nofun⟩, rfl⟩

/-- A variable for a field that has none yet. -/
theorem WellFormed.addDv (wf : dvs.WellFormed) {dv : Dynvar N T F S} (absent : dvs.index dv.field = none) :
    (dvs.addDv dv.field dv).WellFormed := by
  have fresh : ∀ old ∈ dvs.array, old.field ≠ dv.field := by
    intro old member same
    rw [← same, (wf.index old.field old).mpr ⟨member, rfl⟩] at absent
    cases absent
  refine ⟨?_, fun i other => ?_, ?_⟩
  · rw [Dynvars.addDv, map_append, nodup_append]
    refine ⟨wf.fields, nodup_singleton _, fun field old new last => ?_⟩
    obtain ⟨held, member, rfl⟩ := mem_map.mp old
    rw [map_singleton, mem_singleton] at last
    exact last ▸ fresh held member
  · have found : (dvs.addDv dv.field dv).index i = if i = dv.field then some dv else dvs.index i := rfl
    rw [found, Dynvars.addDv, mem_append, mem_singleton]
    split
    · rename_i same
      subst same
      constructor
      · rintro ⟨rfl⟩
        exact ⟨.inr rfl, rfl⟩
      · rintro ⟨old | rfl, same⟩
        · exact absurd same (fresh other old)
        · rfl
    · rename_i differs
      rw [wf.index]
      constructor
      · rintro ⟨old, same⟩
        exact ⟨.inl old, same⟩
      · rintro ⟨old | rfl, same⟩
        · exact ⟨old, same⟩
        · exact absurd same.symm differs
  · rw [Dynvars.addDv, length_append, wf.count]
    rfl

theorem add_ok {lib : FieldLibrary T S D} {pkt var : List Char} {func : F} {first : Option (LuaValue N T)}
    {dv : Dynvar N T F S} {dvs' : Dynvars N T F S} (done : dvs.add lib pkt var func first = .ok (dv, dvs')) :
    (∃ applyfn, dv = { pkt, var, func, applyfn, value := first }) ∧ dvs' = dvs.addDv (pkt ++ var) dv := by
  rw [add, newDynvar] at done
  cases found : lib.findSetter pkt var with
  | error raise =>
    rw [found] at done
    cases done
  | ok setter =>
    rw [found] at done
    cases setter with
    | none => cases done
    | some applyfn =>
      cases done
      exact ⟨⟨applyfn, rfl⟩, rfl⟩

/-- The loop keeps the table in order, and the index is that of a loop over tables. -/
theorem WellFormed.inherit (wf : dvs.WellFormed) {other : List (List Char × Dynvar N T F S)}
    (named : ∀ entry ∈ other, entry.2.field = entry.1) (fillTbl : Table (List Char) (LuaValue N T)) :
    (dvs.inherit other fillTbl).WellFormed ∧ (dvs.inherit other fillTbl).index =
      other.foldl (take fun _ dv own => own.isNone && falsy (fillTbl dv.field)) dvs.index := by
  induction other generalizing dvs with
  | nil => exact ⟨wf, rfl⟩
  | cons entry other ih =>
    obtain ⟨own, later⟩ := forall_mem_cons.mp named
    have turn : (inheritDv fillTbl dvs entry).WellFormed ∧ (inheritDv fillTbl dvs entry).index =
        take (fun _ dv own => own.isNone && falsy (fillTbl dv.field)) dvs.index entry := by
      rw [inheritDv, take]
      split
      · rename_i free
        refine ⟨?_, rfl⟩
        rw [← own] at free ⊢
        exact wf.addDv (isNone_iff_eq_none.mp (Bool.and_eq_true_iff.mp free).1)
      · exact ⟨wf, rfl⟩
    rw [Dynvars.inherit, foldl_cons, foldl_cons, ← turn.2]
    exact ih turn.1 later

end Dynvars

theorem defined_cons (i : List Char) (v : FieldValue N T F) (tbl : FieldTable N T F) (j : List Char) :
    defined ((i, v) :: tbl) j = (defined [(i, v)] j).or (defined tbl j) := by
  rw [defined, defined, defined]
  split
  · rw [lookup_cons, lookup_cons]
    split <;> rfl
  · rfl

theorem defined_of_not_mem {tbl : FieldTable N T F} {j : List Char} (absent : j ∉ tbl.map Prod.fst) :
    defined tbl j = none := by
  rw [defined]
  split
  · rw [lookup_eq_none_iff]
    intro entry member
    exact bne_iff_ne.mpr fun same => absent (mem_map.mpr ⟨entry, member, same.symm⟩)
  · rfl

/-- The parts of a field make up its name. -/
theorem fieldParts_append {i pkt var : List Char} (parts : fieldParts i = some (pkt, var)) : pkt ++ var = i := by
  rw [fieldParts] at parts
  split at parts
  · rename_i front capital rest matched
    obtain ⟨rfl, rfl⟩ : front = pkt ∧ capital ++ rest = var := by
      simpa using parts
    obtain ⟨whole, _⟩ := matchWhole_sound matched
    rw [← whole]
    simp
  · cases parts

section
variable {lib : FieldLibrary T S D} {i : List Char} {entry above : List Char → Option (FieldValue N T F)}
  {p q : FlowPacket N T F S D}

namespace FieldState

variable {e e' : Option (FieldValue N T F)} {fill fill' : Option (LuaValue N T)} {dyn dyn' : Option (Dynvar N T F S)}
  {dep dep' : Option (Depvar T D)}

theorem of_none (state : FieldState lib i none fill dyn dep) : fill = none ∧ dyn = none ∧ dep = none := by
  cases state
  exact ⟨rfl, rfl, rfl⟩

section
variable (state : FieldState lib i e fill dyn dep)

include state

/-- The tables of constants and of dependencies are those of the definition. -/
theorem tables_eq : fill = e.bind FieldValue.fill ∧ dep = e.bind (FieldValue.depvar lib) := by
  cases state with
  | absent => exact ⟨rfl, rfl⟩
  | function _ _ _ => exact ⟨rfl, rfl⟩
  | table t => exact ⟨rfl, rfl⟩
  | @constant v plain _ =>
    cases v with
    | table t => exact absurd rfl (plain t)
    | boolean b => exact ⟨rfl, rfl⟩
    | number n => exact ⟨rfl, rfl⟩
    | string s => exact ⟨rfl, rfl⟩

theorem function_iff {func : F} {first : Option (LuaValue N T)} :
    (∃ dv, dyn = some dv ∧ dv.func = func ∧ dv.value = first) ↔ e = some (.function func first) := by
  cases state with
  | absent => exact ⟨nofun, nofun⟩
  | @function func' first' dv _ made _ =>
    constructor
    · rintro ⟨_, ⟨rfl⟩, rfl, rfl⟩
      rw [made.1, made.2]
    · rintro ⟨rfl⟩
      exact ⟨dv, rfl, made⟩
  | table t => exact ⟨nofun, nofun⟩
  | constant _ _ => exact ⟨nofun, nofun⟩

theorem table_iff {t : T} : (∃ dv, dep = some dv ∧ dv.tbl = t) ↔ e = some (.value (.table t)) := by
  cases state with
  | absent => exact ⟨nofun, nofun⟩
  | function _ _ _ => exact ⟨nofun, nofun⟩
  | table t' =>
    constructor
    · rintro ⟨_, ⟨rfl⟩, rfl⟩
      rfl
    · rintro ⟨rfl⟩
      exact ⟨_, rfl, rfl⟩
  | constant plain _ => exact ⟨nofun, fun same => absurd (FieldValue.value.inj (Option.some.inj same)) (plain t)⟩

theorem constant_iff {v : LuaValue N T} (plain : ∀ t, v ≠ .table t) :
    (fill = some v ∧ dyn = none ∧ dep = none) ↔ e = some (.value v) := by
  cases state with
  | absent => exact ⟨nofun, nofun⟩
  | function _ _ _ => exact ⟨fun held => (nomatch held.2.1), nofun⟩
  | table t =>
    refine ⟨fun held => (nomatch held.2.2), fun same => ?_⟩
    exact absurd (FieldValue.value.inj (Option.some.inj same)).symm (plain t)
  | constant _ _ =>
    constructor
    · rintro ⟨⟨rfl⟩, _, _⟩
      rfl
    · rintro ⟨rfl⟩
      exact ⟨rfl, rfl, rfl⟩

end

/-- A loop of `inherit` at one field. -/
def inherited {α : Type} (own other : Option α) (free : Bool) : Option α :=
  match other with
  | none => own
  | some v => if free then some v else own

theorem inherited_true {α : Type} (other : Option α) : inherited none other true = other := by
  cases other <;> rfl

theorem inherited_false {α : Type} (own other : Option α) : inherited own other false = own := by
  cases other <;> rfl

/-- A field that is there guards itself against all three loops. -/
theorem inherit (own : FieldState lib i e fill dyn dep) (other : FieldState lib i e' fill' dyn' dep') :
    FieldState lib i (e.or e') (inherited fill fill' (falsy fill))
      (inherited dyn dyn' (dyn.isNone && falsy fill)) (inherited dep dep' (dep.isNone && falsy fill)) := by
  have kept {v : FieldValue N T F} (own : FieldState lib i (some v) fill dyn dep) (truthy : falsy fill = false) :
      FieldState lib i ((some v).or e') (inherited fill fill' (falsy fill))
        (inherited dyn dyn' (dyn.isNone && falsy fill)) (inherited dep dep' (dep.isNone && falsy fill)) := by
    rw [truthy, Bool.and_false, Bool.and_false, inherited_false, inherited_false, inherited_false]
    exact own
  cases own with
  | absent =>
    have free : falsy (none : Option (LuaValue N T)) = true := rfl
    rw [free, isNone_none, isNone_none, Bool.and_true, inherited_true, inherited_true, inherited_true]
    exact other
  | function own made truthy => exact kept (.function own made truthy) truthy
  | table t => exact kept (.table t) rfl
  | constant plain truthy =>
    refine kept (.constant plain truthy) ?_
    rw [falsy, any_some, truthy]
    rfl

end FieldState

namespace FlowPacket.Represents

/-- Inheriting adds the definitions of the fields that have none. -/
theorem inherit (own : p.Represents lib entry) (other : q.Represents lib above) {visits : Visits N T F S D}
    (all : visits.Of q) : (p.inherit (some visits)).Represents lib fun i => (entry i).or (above i) := by
  have named : ∀ dv ∈ visits.dynvars, dv.2.field = dv.1 := by
    rintro ⟨i, dv⟩ member
    exact ((other.dynvars.index i dv).mp ((all.1.2 i dv).mp member)).2
  obtain ⟨wf, index⟩ := own.dynvars.inherit named p.fillTbl
  refine ⟨fun i => ?_, wf⟩
  have dynAt : (p.inherit (some visits)).dynvars.index i = FieldState.inherited (p.dynvars.index i)
      (q.dynvars.index i) ((p.dynvars.index i).isNone && falsy (p.fillTbl i)) := by
    refine (congrFun index i).trans ((foldl_take _ _ all.1 i).trans ?_)
    cases found : q.dynvars.index i with
    | none => rfl
    | some dv =>
      obtain ⟨_, rfl⟩ := (other.dynvars.index i dv).mp found
      rfl
  have depAt : (p.inherit (some visits)).depvars i = FieldState.inherited (p.depvars i) (q.depvars i)
      ((p.depvars i).isNone && falsy (p.fillTbl i)) := foldl_take _ _ all.2.1 i
  have fillAt : (p.inherit (some visits)).fillTbl i = FieldState.inherited (p.fillTbl i) (q.fillTbl i)
      (falsy (p.fillTbl i)) := foldl_take _ _ all.2.2 i
  rw [dynAt, depAt, fillAt]
  exact (own.state i).inherit (other.state i)

section
variable (rep : p.Represents lib entry)

include rep

/-- A new definition for a field that has none. -/
theorem define {v : FieldValue N T F} (absent : entry i = none)
    (parts : (fieldParts i).isSome) (wf : q.dynvars.WellFormed)
    (here : FieldState lib i (some v) (q.fillTbl i) (q.dynvars.index i) (q.depvars i))
    (there : ∀ j, j ≠ i →
      q.fillTbl j = p.fillTbl j ∧ q.dynvars.index j = p.dynvars.index j ∧ q.depvars j = p.depvars j) :
    q.Represents lib fun j => (entry j).or (defined [(i, v)] j) := by
  refine ⟨fun j => ?_, wf⟩
  by_cases same : j = i
  · subst same
    rw [absent, none_or, defined, if_pos parts, lookup_cons_self]
    exact here
  · obtain ⟨fill, dyn, dep⟩ := there j same
    have other : defined [(i, v)] j = none := by
      refine defined_of_not_mem fun member => same ?_
      exact mem_singleton.mp member
    rw [other, or_none, fill, dyn, dep]
    exact rep.state j

theorem newField {v : FieldValue N T F} (absent : entry i = none)
    (truthy : v.truthy = true) {log log' : List FieldError} (done : p.newField lib log i v = .ok (q, log')) :
    q.Represents lib fun j => (entry j).or (defined [(i, v)] j) := by
  obtain ⟨fillNone, dynNone, depNone⟩ := (absent ▸ rep.state i).of_none
  rw [FlowPacket.newField] at done
  cases parts : fieldParts i with
  | none =>
    rw [parts] at done
    obtain ⟨rfl, _⟩ := Prod.mk.inj (Except.ok.inj done)
    have undefined : ∀ j, defined [(i, v)] j = none := by
      intro j
      rw [defined]
      split
      · rename_i field
        rw [lookup_cons, beq_false_of_ne (fun same => ?_), lookup_nil]
        rw [same, parts] at field
        cases field
      · rfl
    simpa only [undefined, or_none] using rep
  | some names =>
    obtain ⟨pkt, var⟩ := names
    have whole := fieldParts_append parts
    have field : (fieldParts i).isSome := by rw [parts, isSome_some]
    rw [parts] at done
    cases v with
    | function func first =>
      cases added : p.dynvars.add lib pkt var func first with
      | error raise =>
        simp only [added] at done
        cases done
      | ok result =>
        obtain ⟨dv, dvs⟩ := result
        obtain ⟨⟨applyfn, rfl⟩, rfl⟩ := Dynvars.add_ok added
        simp only [added] at done
        cases done
        subst whole
        refine rep.define absent field (rep.dynvars.addDv dynNone) ?_ fun j other => ?_
        · show FieldState lib _ _ (assign _ _ _ _) (assign _ _ _ _) (p.depvars _)
          rw [assign_self, assign_self, depNone]
          exact .function rfl ⟨rfl, rfl⟩ ((Bool.not_eq_true_eq_eq_false _).mp truthy)
        · exact ⟨assign_of_ne _ _ other, assign_of_ne _ _ other, rfl⟩
    | value v =>
      by_cases table : ∃ t, v = .table t
      · obtain ⟨t, rfl⟩ := table
        cases done
        refine rep.define absent field rep.dynvars ?_ fun j other => ?_
        · show FieldState lib _ _ (assign _ _ _ _) (p.dynvars.index i) (assign _ _ _ _)
          rw [assign_self, assign_self, dynNone]
          exact .table t
        · exact ⟨assign_of_ne _ _ other, rfl, assign_of_ne _ _ other⟩
      · have plain : q = { p with fillTbl := assign p.fillTbl i (some v) } := by
          cases v with
          | table t => exact absurd ⟨t, rfl⟩ table
          | boolean b => cases done; rfl
          | number n => cases done; rfl
          | string s => cases done; rfl
        subst plain
        refine rep.define absent field rep.dynvars ?_ fun j other => ?_
        · show FieldState lib _ _ (assign _ _ _ _) (p.dynvars.index i) (p.depvars i)
          rw [assign_self, dynNone, depNone]
          exact .constant (fun t same => table ⟨t, same⟩) truthy
        · exact ⟨assign_of_ne _ _ other, rfl, rfl⟩

theorem newLoop {tbl : FieldTable N T F} (distinct : (tbl.map Prod.fst).Nodup)
    (absent : ∀ i ∈ tbl.map Prod.fst, entry i = none) (truthy : FieldsTruthy tbl) {log log' : List FieldError}
    (done : FlowPacket.newLoop lib p log tbl = .ok (q, log')) :
    q.Represents lib fun j => (entry j).or (defined tbl j) := by
  induction tbl generalizing p entry log with
  | nil =>
    obtain ⟨rfl, _⟩ := Prod.mk.inj (Except.ok.inj done)
    simpa [defined] using rep
  | cons field tbl ih =>
    obtain ⟨i, v⟩ := field
    obtain ⟨fresh, later⟩ := nodup_cons.mp distinct
    obtain ⟨free, others⟩ := forall_mem_cons.mp absent
    rw [FlowPacket.newLoop] at done
    cases turn : p.newField lib log i v with
    | error raise =>
      rw [turn] at done
      cases done
    | ok next =>
      rw [turn] at done
      obtain ⟨alone, rest⟩ := forall_mem_cons.mp truthy
      have absent' : ∀ j ∈ tbl.map Prod.fst, (entry j).or (defined [(i, v)] j) = none := by
        intro j member
        rw [others j member, none_or]
        refine defined_of_not_mem fun same => fresh ?_
        exact mem_singleton.mp same ▸ member
      have result := ih (rep.newField free alone turn) later absent' rest done
      simpa only [defined_cons i v tbl, Option.or_assoc] using result

/-- A packet defines a field as the given definitions do. -/
theorem defines_iff (i : List Char) (v : FieldValue N T F) : p.Defines i v ↔ entry i = some v := by
  have noVariable : (∀ dv ∈ p.dynvars.array, dv.field ≠ i) ↔ p.dynvars.index i = none := by
    simp only [eq_none_iff_forall_ne_some, ne_eq, rep.dynvars.index i, not_and]
  have constant {v : LuaValue N T} (plain : ∀ t, v ≠ .table t) : (p.fillTbl i = some v ∧
      (∀ dv ∈ p.dynvars.array, dv.field ≠ i) ∧ p.depvars i = none) ↔ entry i = some (.value v) := by
    rw [noVariable, (rep.state i).constant_iff plain]
  cases v with
  | function func first =>
    rw [← (rep.state i).function_iff, FlowPacket.Defines]
    simp only [rep.dynvars.index i, and_assoc]
  | value v =>
    cases v with
    | table t => exact (rep.state i).table_iff
    | boolean b => exact constant nofun
    | number n => exact constant nofun
    | string s => exact constant nofun

/-- There are as many variables as fields that are defined by a function. -/
theorem count_eq : p.dynvars.count = {i | ∃ func first, entry i = some (.function func first)}.ncard := by
  have same : {i | ∃ func first, entry i = some (.function func first)} =
      ((p.dynvars.array.map Dynvar.field).toFinset : Set (List Char)) := by
    ext i
    simp only [Set.mem_ofPred_eq, ← (rep.state i).function_iff, rep.dynvars.index i, coe_toFinset, List.mem_map]
    constructor
    · rintro ⟨_, _, dv, member, _, _⟩
      exact ⟨dv, member⟩
    · rintro ⟨dv, member⟩
      exact ⟨dv.func, dv.value, dv, member, rfl, rfl⟩
  rw [same, Set.ncard_coe_finset, toFinset_card_of_nodup rep.dynvars.fields, length_map, rep.dynvars.count]
end

end FlowPacket.Represents

theorem nearest_append (chain above : List (FieldTable N T F)) (i : List Char) :
    nearest (chain ++ above) i = (nearest chain i).or (nearest above i) := findSome?_append

/-- Packets combined by `inherit` hold the nearest definitions. -/
theorem Combined.represents {chain : List (FieldTable N T F)} (combined : Combined lib chain p)
    (truthy : ∀ tbl ∈ chain, FieldsTruthy tbl) : p.Represents lib (nearest chain) := by
  induction combined with
  | @new tbl p log distinct made =>
    have start : (FlowPacket.empty : FlowPacket N T F S D).Represents lib fun _ => none :=
      ⟨fun _ => .absent, Dynvars.wellFormed_new⟩
    have result := start.newLoop distinct (fun _ _ => rfl) (truthy tbl mem_cons_self) made
    have same : nearest [tbl] = defined tbl := by
      funext i
      rw [nearest, findSome?_singleton]
    simpa only [same, none_or] using result
  | alone _ ih => exact ih truthy
  | inherit _ _ all own other =>
    rw [forall_mem_append] at truthy
    rw [funext (nearest_append _ _)]
    exact (own truthy.1).inherit (other truthy.2) all

end

/-- Packets combined by `inherit` define each field once, as the nearest packet does that
defines it, with one dynamic variable for each field that has a function. -/
theorem field_inheritance {lib : FieldLibrary T S D} {chain : List (FieldTable N T F)} {p : FlowPacket N T F S D}
    (combined : Combined lib chain p) (truthy : ∀ tbl ∈ chain, FieldsTruthy tbl) :
    (∀ i v, p.Defines i v ↔ nearest chain i = some v) ∧
    (∀ i, p.fillTbl i = (nearest chain i).bind FieldValue.fill ∧
      p.depvars i = (nearest chain i).bind (FieldValue.depvar lib)) ∧
    (∀ i dv, p.dynvars.index i = some dv ↔ dv ∈ p.dynvars.array ∧ dv.field = i) ∧
    (p.dynvars.array.map Dynvar.field).Nodup ∧ p.dynvars.array.length = p.dynvars.count ∧
    p.dynvars.count = {i | ∃ func first, nearest chain i = some (.function func first)}.ncard := by
  have rep := combined.represents truthy
  exact ⟨rep.defines_iff, fun i => (rep.state i).tables_eq, rep.dynvars.index, rep.dynvars.fields, rep.dynvars.count,
    rep.count_eq⟩

/-- A library with setters for all fields. -/
def plainLibrary : FieldLibrary Unit Unit Unit where
  aliases := fun _ => none
  metatype := fun _ => some fun _ => some ()
  dependency := some

def childFields : FieldTable Nat Unit Unit := [(['i', 'p', 'D', 's', 't'], .value (.number 1))]

def parentFields : FieldTable Nat Unit Unit :=
  [(['i', 'p', 'D', 's', 't'], .function () (some (.number 7))), (['i', 'p', 'S', 'r', 'c'], .value (.table ()))]

/-- The dynamic variable of `parentFields`. -/
def parentDynvar : Dynvar Nat Unit Unit Unit :=
  { pkt := ['i', 'p'], var := ['D', 's', 't'], func := (), applyfn := (), value := some (.number 7) }

/-- The packet made of `parentFields`. -/
def parentPacket : FlowPacket Nat Unit Unit Unit Unit where
  fillTbl := assign (assign (fun _ => none) ['i', 'p', 'D', 's', 't'] (some (.number 7))) ['i', 'p', 'S', 'r', 'c']
    (some (.boolean true))
  depvars := assign (fun _ => none) ['i', 'p', 'S', 'r', 'c'] (some { dep := some (), tbl := () })
  dynvars := Dynvars.new.addDv ['i', 'p', 'D', 's', 't'] parentDynvar

/-- The entries of `parentPacket`. -/
def parentVisits : FlowPacket.Visits Nat Unit Unit Unit Unit where
  dynvars := [(['i', 'p', 'D', 's', 't'], parentDynvar)]
  depvars := [(['i', 'p', 'S', 'r', 'c'], { dep := some (), tbl := () })]
  fillTbl := [(['i', 'p', 'S', 'r', 'c'], .boolean true), (['i', 'p', 'D', 's', 't'], .number 7)]

/-- The constant of a child hides the dynamic variable of its parent. -/
theorem field_inheritance_child : ∃ p : FlowPacket Nat Unit Unit Unit Unit,
    Combined plainLibrary [childFields, parentFields] p ∧ p.Defines ['i', 'p', 'D', 's', 't'] (.value (.number 1)) ∧
    p.Defines ['i', 'p', 'S', 'r', 'c'] (.value (.table ())) ∧ p.dynvars.array.length = p.dynvars.count := by
  have child : Combined plainLibrary [childFields] _ := .new (by decide) rfl
  have parent : Combined plainLibrary [parentFields] parentPacket := .new (by decide) rfl
  have all : parentVisits.Of parentPacket := by
    refine ⟨?_, ?_, ?_⟩
    · exact Pairs.assign pairs_empty rfl
    · exact Pairs.assign pairs_empty rfl
    · refine Pairs.assign (Pairs.assign pairs_empty ?_) ?_ <;> rfl
  have both := child.inherit parent all
  have truthy : ∀ tbl ∈ [childFields, parentFields], FieldsTruthy tbl := by
    simp only [forall_mem_cons, FieldsTruthy, childFields, parentFields]
    exact ⟨⟨rfl, nofun⟩, ⟨rfl, rfl, nofun⟩, nofun⟩
  obtain ⟨defines, _, _, _, count, _⟩ := field_inheritance both truthy
  exact ⟨_, both, (defines _ _).mpr rfl, (defines _ _).mpr rfl, count⟩

end MoonGen
