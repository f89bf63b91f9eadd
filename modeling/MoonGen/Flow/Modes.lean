import Mathlib.Data.Nat.Count
import MoonGen.Flow.Fields
import MoonGen.Lib.Lua
import MoonGen.Packet.Fill

namespace MoonGen

open LuaTable Packet Packet.Named
open List Option Nat

/-- The function `incAndWrap`, on integers of 32 bits with their sign. -/
def incAndWrap (val max : Int) : Int :=
  (BitVec.ofInt 32 (val + 1) &&& (BitVec.ofInt 32 (val - max + 1)).sshiftRight 31).toInt

theorem toInt_ofInt_of_small {m : Int} (least : -2 ^ 31 ≤ m) (greatest : m < 2 ^ 31) :
    (BitVec.ofInt 32 m).toInt = m := by
  rw [BitVec.toInt_ofInt]
  exact Int.bmod_eq_of_le (by omega) (by omega)

/-- The counter runs through the numbers below its maximum while that has 31 bits. -/
theorem incAndWrap_eq_mod {v n : Nat} (below : v < n) (few : n ≤ 2 ^ 31) : incAndWrap v n = ((v + 1) % n : Nat) := by
  rw [incAndWrap]
  by_cases last : v + 1 = n
  · have zero : (v : Int) - n + 1 = 0 := by omega
    rw [zero, last, mod_self]
    simp
  · have sign : (BitVec.ofInt 32 ((v : Int) - n + 1)).sshiftRight 31 = BitVec.allOnes 32 := by
      apply BitVec.eq_of_toInt_eq
      rw [BitVec.toInt_sshiftRight, toInt_ofInt_of_small (by omega) (by omega), Int.shiftRight_eq_div_pow]
      simp
      omega
    rw [sign, BitVec.and_allOnes, toInt_ofInt_of_small (by omega) (by omega), mod_eq_of_lt (by omega)]
    rfl

/-- A function with its state, as the values that it returns one after the other. -/
abbrev Generator := Nat → Option (LuaValue Nat Unit)

/-- A setter of a protocol, by the named argument for which `fill` calls it. -/
structure FieldSetter where
  proto : Proto
  suffix : String
  deriving DecidableEq

abbrev FlowDynvar := Dynvar Nat Unit Generator FieldSetter

/-- The table `_aliases`. -/
def fieldAliases : List (String × FieldSetter) :=
  [("udpSrc", ⟨.udp, "Src"⟩), ("udpDst", ⟨.udp, "Dst"⟩), ("tcpSrc", ⟨.tcp, "Src"⟩), ("tcpDst", ⟨.tcp, "Dst"⟩),
    ("ethSrc", ⟨.ethernet, "Src"⟩), ("ethDst", ⟨.ethernet, "Dst"⟩), ("ethVlan", ⟨.ethernet, "Vlan"⟩),
    ("ethinnerVlanTag", ⟨.ethernet, "innerVlanTag"⟩), ("ethouterVlanId", ⟨.ethernet, "outerVlanTag"⟩),
    ("ethouterVlanTag", ⟨.ethernet, "outerVlanTag"⟩)]

/-- The methods of a metatype that `fill` calls, each with its named argument. -/
def metatypeMethods : Proto → List (String × String)
  | .ip4 => (headerSetters .ip4 none).map fun setter => ("set" ++ setter.1, setter.1)
  | .udp => [("setSrcPort", "Src"), ("setDstPort", "Dst"), ("setLength", "Length"), ("setChecksum", "Checksum")]
  | .tcp =>
    [("setSrcPort", "Src"), ("setSrc", "Src"), ("setDstPort", "Dst"), ("setDst", "Dst"), ("setSeqNumber", "SeqNumber"),
      ("setAckNumber", "AckNumber"), ("setDataOffset", "DataOffset"), ("setReserved", "Reserved"), ("setFlags", "Flags"),
      ("setWindow", "Window"), ("setChecksum", "Checksum"), ("setUrgentPointer", "UrgentPointer")]
  | _ => []

/-- The setters of packets of TCP and UDP over IPv4. The module of Ethernet has a metatype
only in the tables of its sub types. -/
def fieldLibrary : FieldLibrary Unit FieldSetter Unit where
  aliases := fun field => fieldAliases.lookup (String.ofList field)
  metatype := fun pkt => ([.ip4, .udp, .tcp].find? fun proto : Proto => proto.member.toList = pkt).map
    fun proto method => ((metatypeMethods proto).lookup (String.ofList method)).map (⟨proto, ·⟩)
  dependency := fun _ => none

/-- The call of a setter with a header and a value, of which only numbers are modelled. -/
def callSetter (S : Setters) (fn : FieldSetter) (value : Option (LuaValue Nat Unit)) (h : HeaderData)
    (bytes : List UInt8) : Option (List UInt8) :=
  match value with
  | some (.number n) => if h.proto = fn.proto then S.set h fn.suffix (some (.number n)) bytes else none
  | _ => none

namespace Dynvar

def update (dv : FlowDynvar) : FlowDynvar := { dv with value := dv.func 0, func := fun k => dv.func (k + 1) }

/-- The setter is called with `pkt[self.pkt]`, the member of that name. -/
def apply (S : Setters) (dv : FlowDynvar) : Pkt → Option Pkt
  | [] => none
  | (h, bytes) :: headers =>
    if h.name.toList = dv.pkt then (callSetter S dv.applyfn dv.value h bytes).map fun bytes => (h, bytes) :: headers
    else (apply S dv headers).map ((h, bytes) :: ·)

def updateApply (S : Setters) (dv : FlowDynvar) (pkt : Pkt) : Option (FlowDynvar × Pkt) :=
  (apply S (update dv) pkt).map fun pkt => (update dv, pkt)

end Dynvar

/-- The dynamic variables behind `finalize`, whose `count` is the length of the array. -/
abbrev FinalDynvars := List FlowDynvar

namespace FinalDynvars

/-- The variable `dv[index + 1]`. -/
def get (dvs : FinalDynvars) (index : Int) : Option FlowDynvar := if 0 ≤ index then dvs[index.toNat]? else none

def set (dvs : FinalDynvars) (index : Int) (dv : FlowDynvar) : FinalDynvars := List.set dvs index.toNat dv

def applyAll (S : Setters) : FinalDynvars → Pkt → Option Pkt
  | [], pkt => some pkt
  | dv :: dvs, pkt => (dv.apply S pkt).bind (applyAll S dvs)

def updateApplyAll (S : Setters) : FinalDynvars → Pkt → Option (FinalDynvars × Pkt)
  | [], pkt => some ([], pkt)
  | dv :: dvs, pkt => do
    let (dv, pkt) ← dv.updateApply S pkt
    let (dvs, pkt) ← updateApplyAll S dvs pkt
    return (dv :: dvs, pkt)

end FinalDynvars

inductive UpdateMode
  | single
  | alternating
  | random
  | randomAlt
  | all
deriving DecidableEq

def validMode (mode : List Char) : Option UpdateMode :=
  if mode = "single".toList then some .single
  else if mode = "alternating".toList then some .alternating
  else if mode = "random".toList then some .random
  else if mode = "random_alt".toList then some .randomAlt
  else if mode = "all".toList then some .all
  else none

/-- The value of the option: `nil`, a string, or a value of another type but a function. -/
inductive ModeArg
  | absent
  | string (s : List Char)
  | other (type : String) (truthy : Bool)

/-- An error for the error handler: a format and the argument for it. -/
structure ModeError where
  format : String
  arg : List Char

/-- The parser of the option `mode` for a packet with so many dynamic variables: the update
function if the flow gets one, which may be a value that cannot be called. -/
def parseMode (count : Nat) (mode : ModeArg) : Option (Option UpdateMode) × List ModeError :=
  if count = 0 then
    match mode with
    | .absent => (none, [])
    | .string s =>
      (none, if s = "none".toList then [] else [⟨"Value set, but no dynvars in associated packet.", []⟩])
    | .other _ truthy => (none, if truthy then [⟨"Value set, but no dynvars in associated packet.", []⟩] else [])
  else
    match mode with
    | .absent => (some (some .single), [])
    | .string s =>
      if s = "none".toList then (none, [])
      else
        match validMode (Lua.lower s) with
        | some mode => (some (some mode), [])
        | none => (some (some .single), [⟨"Invalid value %q. Can be one of %s.", s⟩])
    | .other type truthy =>
      (some (if truthy then none else some .single),
        [⟨"Invalid argument. String or function expected, got %s.", type.toList⟩])

/-- A flow between two packets: whether `updatePacket` is still the function that only
replaces itself, and the index of the modes `single` and `alternating`. -/
structure UpdateState where
  dynvars : FinalDynvars
  mode : Option UpdateMode
  delayed : Bool
  index : Int

namespace UpdateState

def start (dynvars : FinalDynvars) (mode : Option UpdateMode) : UpdateState :=
  { dynvars, mode, delayed := true, index := 0 }

/-- The update function of a mode, with the number that `math.random` returns. An error of
Lua is `none`. -/
def updateMode (S : Setters) (s : UpdateState) (roll : Nat) (pkt : Pkt) : UpdateMode → Option (UpdateState × Pkt)
  | .single => do
    let dv ← s.dynvars.get s.index
    let dynvars := s.dynvars.set s.index dv.update
    let pkt ← dynvars.applyAll S pkt
    return ({ s with dynvars, index := incAndWrap s.index dynvars.length }, pkt)
  | .alternating => do
    let dv ← s.dynvars.get s.index
    let (dv, pkt) ← dv.updateApply S pkt
    let dynvars := s.dynvars.set s.index dv
    return ({ s with dynvars, index := incAndWrap s.index dynvars.length }, pkt)
  | .random => do
    let dv ← s.dynvars.get (roll - 1)
    let dynvars := s.dynvars.set (roll - 1) dv.update
    let pkt ← dynvars.applyAll S pkt
    return ({ s with dynvars }, pkt)
  | .randomAlt => do
    let dv ← s.dynvars.get (roll - 1)
    let (dv, pkt) ← dv.updateApply S pkt
    return ({ s with dynvars := s.dynvars.set (roll - 1) dv }, pkt)
  | .all => do
    let (dynvars, pkt) ← s.dynvars.updateApplyAll S pkt
    return ({ s with dynvars }, pkt)

/-- The call of `updatePacket` for a buffer. -/
def updatePacket (S : Setters) (s : UpdateState) (roll : Nat) (pkt : Pkt) : Option (UpdateState × Pkt) :=
  if s.delayed then some ({ s with delayed := false }, pkt)
  else s.mode.bind (s.updateMode S roll pkt)

/-- The flow after some packets, each in a buffer with some contents. -/
def after (S : Setters) (s : UpdateState) (rolls : Nat → Nat) (bufs : Nat → Pkt) : Nat → Option UpdateState
  | 0 => some s
  | t + 1 => (after S s rolls bufs t).bind fun s => (s.updatePacket S (rolls t) (bufs t)).map Prod.fst

/-- The packet with some number, from zero. -/
def packetAt (S : Setters) (s : UpdateState) (rolls : Nat → Nat) (bufs : Nat → Pkt) (t : Nat) : Option Pkt :=
  (s.after S rolls bufs t).bind fun s => (s.updatePacket S (rolls t) (bufs t)).map Prod.snd

end UpdateState

/-- The fields that `fill` and a setter of the library store as whole numbers in one place. -/
inductive DynField
  | ethSrc | ethDst | ethVlan
  | ip4TOS | ip4Length | ip4ID | ip4TTL | ip4Protocol | ip4Checksum | ip4Src | ip4Dst
  | udpSrc | udpDst | udpLength | udpChecksum
  | tcpSrc | tcpDst | tcpSeqNumber | tcpAckNumber | tcpWindow | tcpChecksum | tcpUrgentPointer
  deriving DecidableEq

namespace DynField

def proto : DynField → Proto
  | ethSrc | ethDst | ethVlan => .ethernet
  | ip4TOS | ip4Length | ip4ID | ip4TTL | ip4Protocol | ip4Checksum | ip4Src | ip4Dst => .ip4
  | udpSrc | udpDst | udpLength | udpChecksum => .udp
  | tcpSrc | tcpDst | tcpSeqNumber | tcpAckNumber | tcpWindow | tcpChecksum | tcpUrgentPointer => .tcp

def var : DynField → String
  | ethSrc | ip4Src | udpSrc | tcpSrc => "Src"
  | ethDst | ip4Dst | udpDst | tcpDst => "Dst"
  | ethVlan => "Vlan"
  | ip4TOS => "TOS"
  | ip4Length | udpLength => "Length"
  | ip4ID => "ID"
  | ip4TTL => "TTL"
  | ip4Protocol => "Protocol"
  | ip4Checksum | udpChecksum | tcpChecksum => "Checksum"
  | tcpSeqNumber => "SeqNumber"
  | tcpAckNumber => "AckNumber"
  | tcpWindow => "Window"
  | tcpUrgentPointer => "UrgentPointer"

def pkt (f : DynField) : String := f.proto.member

def name (f : DynField) : String := f.pkt ++ f.var

def member : DynField → Member
  | ethDst => ⟨0, 6, true⟩
  | ethSrc => ⟨6, 6, true⟩
  | ethVlan => ⟨14, 2, false⟩
  | ip4TOS => ⟨1, 1, false⟩
  | ip4Length => ⟨2, 2, false⟩
  | ip4ID => ⟨4, 2, false⟩
  | ip4TTL => ⟨8, 1, false⟩
  | ip4Protocol => ⟨9, 1, false⟩
  | ip4Checksum => ⟨10, 2, false⟩
  | ip4Src => ⟨12, 4, false⟩
  | ip4Dst => ⟨16, 4, false⟩
  | udpSrc | tcpSrc => ⟨0, 2, false⟩
  | udpDst | tcpDst => ⟨2, 2, false⟩
  | udpLength => ⟨4, 2, false⟩
  | udpChecksum => ⟨6, 2, false⟩
  | tcpSeqNumber => ⟨4, 4, false⟩
  | tcpAckNumber => ⟨8, 4, false⟩
  | tcpWindow => ⟨14, 2, false⟩
  | tcpChecksum => ⟨16, 2, false⟩
  | tcpUrgentPointer => ⟨18, 2, false⟩

/-- A header has the field. Only one with a VLAN tag has `ethVlan`. -/
structure In (f : DynField) (h : HeaderData) : Prop where
  name : h.name = f.pkt
  proto : h.proto = f.proto
  vlan : f = .ethVlan → h.subType = some .vlan

/-- A packet has a number in a field. -/
def Carries (f : DynField) (n : Nat) (pkt : Pkt) : Prop := ∃ x ∈ pkt, f.In x.1 ∧ f.member.Holds n x.2

/-- The variable for a field, with its value and those to come. -/
def dynvar (f : DynField) (value : Nat) (later : Nat → Nat) : FlowDynvar where
  pkt := f.pkt.toList
  var := f.var.toList
  applyfn := ⟨f.proto, f.var⟩
  value := some (.number value)
  func := fun i => some (.number (later i))

end DynField

/-- A packet in a buffer, with its headers one behind the other. -/
structure InBuffer (stack : Stack) (pkt : Pkt) : Prop where
  headers : pkt.map Prod.fst = stack.headers
  sizes : ∀ x ∈ pkt, x.2.length = x.1.size

/-- The dynamic variables for some fields when their functions were called so often. -/
def dynvarsAt (fields : List DynField) (g : Nat → Nat → Nat) (k : Nat → Nat) : FinalDynvars :=
  fields.mapIdx fun j f => f.dynvar (g j (k j)) fun i => g j (k j + 1 + i)

/-- The table for `fill` with the given values of the dynamic fields. -/
def firstTable (consts : Args) (fields : List DynField) (first : Nat → Nat) : Args := fun key =>
  match fields.findIdx? fun f => f.name = key with
  | some j => some (.number (first j))
  | none => consts key

/-- The first packet carries the first values, and then one field after the other goes on
to its next value, for all numbers that fit into the fields and whatever is in the buffers
but the first. -/
def RoundRobin (S : Setters) (stack : Stack) (consts : Args) (fields : List DynField) (mode : Option UpdateMode) :
    Prop :=
  ∀ (g : Nat → Nat → Nat) (rolls : Nat → Nat) (bufs : Nat → Pkt) (blank : Pkt) (left : Args)
    (blocks : List (List UInt8)), (∀ j (inside : j < fields.length) k, g j k < 256 ^ fields[j].member.width) →
    InBuffer stack blank → packetFill S (firstTable consts fields fun j => g j 0) 0 blank = some (left, blocks) →
    bufs 0 = stack.headers.zip blocks → (∀ t, InBuffer stack (bufs (t + 1))) →
    ∀ t, ∃ pkt, (UpdateState.start (dynvarsAt fields g fun _ => 0) mode).packetAt S rolls bufs t = some pkt ∧
      ∀ j (inside : j < fields.length),
        fields[j].Carries (g j (Nat.count (fun s => s % fields.length = j) t)) pkt

section Setters
variable {f : DynField} {h : HeaderData} (others : Setters)

theorem DynField.In.modelled (has : f.In h) : Modelled h.proto := by
  rw [has.proto]
  cases f <;> decide

theorem DynField.In.setter (has : f.In h) :
    ∃ s, (headerSetters h.proto h.subType).lookup f.var = some s ∧ s.Stores f.member := by
  obtain ⟨proto, name, length, subType⟩ := h
  obtain ⟨-, rfl, vlan⟩ := has
  cases f with
  | ethSrc | ethDst => rcases subType with - | ⟨⟨⟩⟩ <;> exact ⟨_, rfl, mac_stores _⟩
  | ethVlan =>
    obtain rfl : subType = some .vlan := vlan rfl
    exact vlan_stores
  | ip4TOS | ip4TTL | ip4Protocol => exact ⟨_, rfl, byte_stores _ _⟩
  | ip4Src | ip4Dst => exact ⟨_, rfl, ip4_stores _⟩
  | tcpSeqNumber | tcpAckNumber => exact ⟨_, rfl, long_stores _ _⟩
  | _ => exact ⟨_, rfl, word_stores _ _⟩

/-- A statement of `fill` leaves a member as it is. -/
def Packet.Named.Step.ApartFrom (proto : Proto) (subType : Option SubType) (m : Member) : Step → Prop
  | .set suffix => ∀ s ∈ (headerSetters proto subType).lookup suffix, m.Apart s.offset s.width
  | .keep .. => True
  | .own member => ∀ own ∈ ownMember member, m.Apart own.1 own.2.length

instance (proto : Proto) (subType : Option SubType) (m : Member) : (step : Step) →
    Decidable (step.ApartFrom proto subType m)
  | .set suffix => inferInstanceAs (Decidable (∀ s ∈ (headerSetters proto subType).lookup suffix, _))
  | .keep .. => isTrue trivial
  | .own member => inferInstanceAs (Decidable (∀ own ∈ ownMember member, _))

/-- A field lies inside of its header, is set by `fill`, and nothing else there changes it. -/
theorem DynField.placed (f : DynField) (subType : Option SubType) (vlan : f = .ethVlan → subType = some .vlan) :
    ((headerFormat f.proto subType).isSome →
      f.member.offset + f.member.width ≤ ((headerFormat f.proto subType).getD []).sum) ∧
    .set f.var ∈ fillSteps f.proto subType ∧
    ∀ step ∈ fillSteps f.proto subType, step = .set f.var ∨ step.ApartFrom f.proto subType f.member := by
  cases f with
  | ethVlan =>
    obtain rfl : subType = some .vlan := vlan rfl
    decide
  | _ =>
    clear vlan
    rcases subType with - | ⟨⟨⟩⟩ <;> decide

theorem DynField.In.inside (has : f.In h) (known : (headerFormat h.proto h.subType).isSome) :
    f.member.offset + f.member.width ≤ h.size := by
  obtain ⟨proto, name, length, subType⟩ := h
  obtain ⟨-, rfl, vlan⟩ := has
  exact Nat.le_trans ((f.placed subType vlan).1 known) (Nat.le_add_right _ _)

theorem source_set (modelled : Modelled h.proto) (suffix : String) (v : Option Value) (bytes : List UInt8) :
    (Setters.source others).set h suffix v bytes =
      ((headerSetters h.proto h.subType).lookup suffix).bind fun s => s.set v bytes :=
  if_pos modelled

/-- A statement of `fill` keeps the number in a member that it leaves as it is. -/
theorem Packet.Named.Step.ApartFrom.own {m : Member} {member : String} {bytes : List UInt8} {n : Nat}
    (apart : (Step.own member).ApartFrom h.proto h.subType m) (modelled : Modelled h.proto)
    (inside : m.offset + m.width ≤ bytes.length) (holds : m.Holds n bytes) :
    m.Holds n ((Setters.source others).own h member bytes) := by
  rw [show (Setters.source others).own h member bytes = _ from if_pos modelled]
  split
  · rename_i place value own
    refine holds_slice inside holds fun b after before => Memory.store_of_outside _ ?_
    exact (apart _ (mem_def.mpr own)).outside after before
  · exact holds

theorem length_own (modelled : Modelled h.proto) (member : String) (bytes : List UInt8) :
    ((Setters.source others).own h member bytes).length = bytes.length := by
  rw [show (Setters.source others).own h member bytes = _ from if_pos modelled]
  split
  · exact Memory.length_slice ..
  · rfl

variable {others} {args : Args} {n : Nat} (has : f.In h) (value : args (h.name ++ f.var) = some (.number n))
  (small : n < 256 ^ f.member.width)
include has value small

/-- The statements of `fill` keep the number in a field, if it is the one that they set. -/
theorem holds_writtenBy {steps : List Step} {bytes block : List UInt8}
    (inside : f.member.offset + f.member.width ≤ bytes.length)
    (apart : ∀ step ∈ steps, step = .set f.var ∨ step.ApartFrom h.proto h.subType f.member)
    (set : writtenBy (.source others) h args steps bytes = some block)
    (first : .set f.var ∈ steps ∨ f.member.Holds n bytes) : f.member.Holds n block := by
  induction steps generalizing bytes with
  | nil =>
    cases set
    exact first.resolve_left not_mem_nil
  | cons step steps ih =>
    obtain ⟨here, later⟩ := forall_mem_cons.mp apart
    by_cases own : step = .set f.var
    · subst own
      obtain ⟨bytes', called, rest⟩ := bind_eq_some_iff.mp set
      obtain ⟨s, found, stores⟩ := has.setter
      obtain ⟨stored, eq, length, holds, -⟩ := stores.set small inside
      rw [source_set others has.modelled, found, value, bind_some, eq] at called
      cases called
      exact ih (length.symm ▸ inside) later rest (.inr holds)
    · have next : .set f.var ∈ steps ∨ f.member.Holds n bytes :=
        first.imp_left fun member => (mem_cons.mp member).resolve_left (Ne.symm own)
      have here := here.resolve_left own
      cases step with
      | keep suffix default => exact ih inside later set next
      | own member =>
        exact ih ((length_own others has.modelled member bytes).symm ▸ inside) later set
          (next.imp_right (here.own others has.modelled inside))
      | set suffix =>
        obtain ⟨bytes', called, rest⟩ := bind_eq_some_iff.mp set
        rw [source_set others has.modelled] at called
        obtain ⟨s, found, called⟩ := bind_eq_some_iff.mp called
        exact ih (s.length_set called ▸ inside) later rest (next.imp_right (s.set_of_apart (here s found) inside called))

end Setters

/-- The defaults of a header leave a value that is given, if no `lacp` header follows. -/
theorem defaults_yields (S : Setters) (pktLength : Option Value) (proto : Proto) (pre : String) {next : Option Proto}
    (noLacp : next ≠ some .lacp) (acc size : Nat) (key : String) :
    ∀ w ∈ defaults S pktLength proto pre next acc size, w.Yields key := by
  cases proto with
  | ethernet =>
    rw [defaults, if_neg noLacp]
    exact forall_mem_singleton.mpr trivial
  | _ => simp [defaults, lengthDefault, numberDefault, Defaults.Write.Yields]

theorem settle_field (S : Setters) {args : Args} (pktLength : Option Value) (acc : Nat) (h : HeaderData) {headers : Pkt}
    (noLacp : headers.head?.map (·.1.proto) ≠ some .lacp) {key : String} {n : Nat}
    (value : args key = some (.number n)) :
    Defaults.settle (headerWrites S pktLength acc h headers) args key = some (.number n) := by
  rw [← value]
  refine Defaults.settle_of_given (fun w member => ?_) ⟨.number n, value, rfl⟩
  rcases mem_append.mp member with default | kept
  · exact defaults_yields S pktLength h.proto h.name noLacp acc h.size key w default
  · obtain ⟨suffix, default, -, rfl⟩ := exists_of_mem_keeps kept
    trivial

/-- The first packet carries the values of the table. -/
theorem carries_packetFill {others : Setters} {f : DynField} {n : Nat} {args left : Args} {pkt : Pkt} {acc : Nat}
    {blocks : List (List UInt8)} (small : n < 256 ^ f.member.width) (value : args f.name = some (.number n))
    (known : ∀ x ∈ pkt, (headerFormat x.1.proto x.1.subType).isSome) (noLacp : ∀ x ∈ pkt, x.1.proto ≠ .lacp)
    (sizes : ∀ x ∈ pkt, x.2.length = x.1.size) (present : ∃ x ∈ pkt, f.In x.1)
    (filled : packetFill (.source others) args acc pkt = some (left, blocks)) :
    f.Carries n ((pkt.map Prod.fst).zip blocks) := by
  induction pkt generalizing args acc blocks with
  | nil =>
    obtain ⟨x, member, -⟩ := present
    cases member
  | cons x headers ih =>
    obtain ⟨h, bytes⟩ := x
    obtain ⟨-, block, rest, rfl, -, set, later⟩ := packetFill_cons_cases rfl filled
    rw [forall_mem_cons] at known noLacp sizes
    have next : headers.head?.map (·.1.proto) ≠ some .lacp := by
      cases headers with
      | nil => exact fun same => by cases same
      | cons x headers => exact fun same => noLacp.2 x mem_cons_self (Option.some.inj same)
    have kept {key : String} (value : args key = some (.number n)) :=
      settle_field (.source others) (args "pktLength") acc h next value
    obtain ⟨y, member, has⟩ := present
    rcases mem_cons.mp member with rfl | among
    · refine ⟨(h, block), mem_cons_self, has, ?_⟩
      have own : args (h.name ++ f.var) = some (.number n) := by
        rw [has.name]
        exact value
      obtain ⟨proto, name, length, subType⟩ := h
      obtain ⟨-, rfl, vlan⟩ := id has
      obtain ⟨-, member, apart⟩ := f.placed subType vlan
      exact holds_writtenBy has (kept own) small (sizes.1 ▸ has.inside known.1) apart set (.inl member)
    · obtain ⟨z, inside, has', holds⟩ := ih (kept value) known.2 noLacp.2 sizes.2 ⟨y, among, has⟩ later
      exact ⟨z, mem_cons_of_mem _ inside, has', holds⟩

/-- The call of a setter for the only header of a name. -/
theorem apply_append {S : Setters} {dv : FlowDynvar} {before after : Pkt} {h : HeaderData} {bytes : List UInt8}
    (name : h.name.toList = dv.pkt) (other : ∀ x ∈ before, x.1.name ≠ h.name) :
    dv.apply S (before ++ (h, bytes) :: after) =
      (callSetter S dv.applyfn dv.value h bytes).map fun bytes => before ++ (h, bytes) :: after := by
  induction before with
  | nil => exact if_pos name
  | cons x before ih =>
    obtain ⟨first, later⟩ := forall_mem_cons.mp other
    have differs : x.1.name.toList ≠ dv.pkt := fun same => first (String.toList_injective (same.trans name.symm))
    rw [cons_append, Dynvar.apply, if_neg differs, ih later, Option.map_map]
    rfl

theorem DynField.apart {f f' : DynField} (same : f.proto = f'.proto) (other : f ≠ f') :
    f.member.Apart f'.member.offset f'.member.width := by
  revert same other
  cases f <;> cases f' <;> decide

section
variable (others : Setters) {stack : Stack} {pkt : Pkt}

/-- A variable sets its field and leaves the other ones. -/
theorem apply_dynvar {f : DynField} {n : Nat} (buffer : InBuffer stack pkt) (present : ∃ h ∈ stack.headers, f.In h)
    (small : n < 256 ^ f.member.width) (later : Nat → Nat) :
    ∃ pkt', (f.dynvar n later).apply (.source others) pkt = some pkt' ∧ InBuffer stack pkt' ∧ f.Carries n pkt' ∧
      ∀ f' n', f' ≠ f → f'.Carries n' pkt → f'.Carries n' pkt' := by
  obtain ⟨headers, sizes⟩ := buffer
  obtain ⟨h, inStack, has⟩ := present
  have known := stack.known h inStack
  have distinct := stack.distinct
  rw [← headers] at inStack distinct
  obtain ⟨⟨h', bytes⟩, member, same⟩ := mem_map.mp inStack
  obtain rfl : h' = h := same
  obtain ⟨before, after, rfl⟩ := append_of_mem member
  have size := sizes _ member
  obtain ⟨s, found, stores⟩ := has.setter
  obtain ⟨bytes', set, length, holds, keeps⟩ := stores.set small (size ▸ has.inside known)
  have other : ∀ x ∈ before, x.1.name ≠ h'.name := by
    rw [map_append, map_append] at distinct
    intro x front
    have names := (nodup_append.mp distinct).2.2
    exact names _ (mem_map_of_mem (mem_map_of_mem front)) _ mem_cons_self
  have called : callSetter (.source others) (f.dynvar n later).applyfn (f.dynvar n later).value h' bytes =
      some bytes' := by
    refine (if_pos has.proto).trans ?_
    rw [source_set others has.modelled]
    exact (congrArg (Option.bind · _) found).trans set
  refine ⟨before ++ (h', bytes') :: after, ?_, ⟨?_, ?_⟩, ?_, ?_⟩
  · rw [apply_append (congrArg String.toList has.name) other, called, map_some]
  · simpa using headers
  · intro x inside
    rcases mem_append.mp inside with front | tail
    · exact sizes x (mem_append_left _ front)
    · rcases mem_cons.mp tail with rfl | back
      · exact length.trans size
      · exact sizes x (mem_append_right _ (mem_cons_of_mem _ back))
  · exact ⟨(h', bytes'), mem_append_right _ mem_cons_self, has, holds⟩
  · rintro f' n' differs ⟨x, inside, has', holds'⟩
    rcases mem_append.mp inside with front | tail
    · exact ⟨x, mem_append_left _ front, has', holds'⟩
    · rcases mem_cons.mp tail with rfl | back
      · have apart := DynField.apart (has'.proto.symm.trans has.proto) differs
        exact ⟨(h', bytes'), mem_append_right _ mem_cons_self, has', keeps _ _ apart (size ▸ has'.inside known) holds'⟩
      · exact ⟨x, mem_append_right _ (mem_cons_of_mem _ back), has', holds'⟩

/-- The variables of different fields set all of them. -/
theorem applyAll_dynvars {fields : List DynField} (distinct : fields.Nodup)
    (present : ∀ f ∈ fields, ∃ h ∈ stack.headers, f.In h) (v : Nat → Nat) (later : Nat → Nat → Nat)
    (small : ∀ j (inside : j < fields.length), v j < 256 ^ fields[j].member.width) (buffer : InBuffer stack pkt) :
    ∃ pkt', FinalDynvars.applyAll (.source others) (fields.mapIdx fun j f => f.dynvar (v j) (later j)) pkt = some pkt' ∧
      InBuffer stack pkt' ∧ (∀ j (inside : j < fields.length), fields[j].Carries (v j) pkt') ∧
      ∀ f n, f ∉ fields → f.Carries n pkt → f.Carries n pkt' := by
  induction fields generalizing pkt v later with
  | nil => exact ⟨pkt, rfl, buffer, fun j inside => absurd inside (Nat.not_lt_zero j), fun _ _ _ carries => carries⟩
  | cons f fields ih =>
    obtain ⟨new, distinct⟩ := nodup_cons.mp distinct
    obtain ⟨here, present⟩ := forall_mem_cons.mp present
    obtain ⟨pkt₁, first, buffer₁, carries₁, keeps₁⟩ :=
      apply_dynvar others buffer here (small 0 (succ_pos _)) (later 0)
    obtain ⟨pkt', rest, buffer', carries', keeps'⟩ := ih distinct present (fun j => v (j + 1)) (fun j => later (j + 1))
      (fun j inside => small (j + 1) (succ_lt_succ inside)) buffer₁
    refine ⟨pkt', ?_, buffer', fun j inside => ?_, fun f' n other carries => ?_⟩
    · rw [mapIdx_cons, FinalDynvars.applyAll, first, bind_some, rest]
    · cases j with
      | zero => exact keeps' f _ new carries₁
      | succ j => exact carries' j (lt_of_succ_lt_succ inside)
    · obtain ⟨differs, outside⟩ := not_or.mp (mt mem_cons.mpr other)
      exact keeps' f' n outside (keeps₁ f' n differs carries)

theorem length_dynvarsAt (fields : List DynField) (g : Nat → Nat → Nat) (k : Nat → Nat) :
    (dynvarsAt fields g k).length = fields.length :=
  length_mapIdx

/-- The next value of one variable. -/
theorem set_dynvarsAt {fields : List DynField} (g : Nat → Nat → Nat) (k : Nat → Nat) {i : Nat}
    (inside : i < fields.length) : ∃ dv, (dynvarsAt fields g k).get i = some dv ∧
    (dynvarsAt fields g k).set i (Dynvar.update dv) = dynvarsAt fields g fun j => k j + if i = j then 1 else 0 := by
  have bound : i < (dynvarsAt fields g k).length := (length_dynvarsAt fields g k).symm ▸ inside
  refine ⟨(dynvarsAt fields g k)[i], ?_, ?_⟩
  · rw [FinalDynvars.get, if_pos (Int.natCast_nonneg i), Int.toNat_natCast, getElem?_eq_getElem bound]
  · rw [FinalDynvars.set, Int.toNat_natCast]
    refine ext_getElem (by rw [List.length_set, length_dynvarsAt, length_dynvarsAt]) fun j _ _ => ?_
    rw [getElem_set]
    split
    · rename_i same
      subst same
      simp only [dynvarsAt, getElem_mapIdx, Dynvar.update, DynField.dynvar, if_true, Nat.add_zero]
      congr 1
      funext m
      rw [show k i + 1 + (m + 1) = k i + 1 + 1 + m by omega]
    · rename_i differs
      simp only [dynvarsAt, getElem_mapIdx, if_neg differs, Nat.add_zero]

/-- A flow in the mode `single` between two packets. -/
def singleState (fields : List DynField) (g : Nat → Nat → Nat) (k : Nat → Nat) (index : Int) : UpdateState :=
  { dynvars := dynvarsAt fields g k, mode := some .single, delayed := false, index }

variable {fields : List DynField} (distinct : fields.Nodup) (present : ∀ f ∈ fields, ∃ h ∈ stack.headers, f.In h)
  {g : Nat → Nat → Nat} (small : ∀ j (inside : j < fields.length) k, g j k < 256 ^ fields[j].member.width)
include distinct present small

theorem updatePacket_single (k : Nat → Nat) {i : Nat} (inside : i < fields.length) (roll : Nat)
    (buffer : InBuffer stack pkt) : ∃ pkt', (singleState fields g k i).updatePacket (.source others) roll pkt =
        some (singleState fields g (fun j => k j + if i = j then 1 else 0) (incAndWrap i fields.length), pkt') ∧
      ∀ j (inside : j < fields.length), fields[j].Carries (g j (k j + if i = j then 1 else 0)) pkt' := by
  obtain ⟨dv, found, moved⟩ := set_dynvarsAt g k inside
  obtain ⟨pkt', applied, -, carries, -⟩ := applyAll_dynvars others distinct present
    (fun j => g j (k j + if i = j then 1 else 0)) (fun j m => g j ((k j + if i = j then 1 else 0) + 1 + m))
    (fun j inside => small j inside _) buffer
  refine ⟨pkt', ?_, carries⟩
  simp only [UpdateState.updatePacket, singleState, Bool.false_eq_true, if_false, bind_some,
    UpdateState.updateMode, found]
  rw [bind_eq_bind, bind_some, moved, dynvarsAt, applied, length_mapIdx]
  rfl

/-- A run in the mode `single`: which variable is next and how often each was updated. -/
theorem after_single (few : fields.length ≤ 2 ^ 31) (nonempty : 0 < fields.length) (rolls : Nat → Nat)
    {bufs : Nat → Pkt} (buffers : ∀ t, InBuffer stack (bufs (t + 1))) (t : Nat) :
    (UpdateState.start (dynvarsAt fields g fun _ => 0) (some .single)).after (.source others) rolls bufs (t + 1) =
      some (singleState fields g (fun j => Nat.count (fun s => s % fields.length = j) t)
        (t % fields.length : Nat)) := by
  induction t with
  | zero => rfl
  | succ t ih =>
    have inside := mod_lt t nonempty
    obtain ⟨pkt', turn, -⟩ := updatePacket_single others distinct present small
      (fun j => Nat.count (fun s => s % fields.length = j) t) inside (rolls (t + 1)) (buffers t)
    rw [UpdateState.after, ih, bind_some, turn, map_some, incAndWrap_eq_mod inside few, mod_add_mod]
    simp only [count_succ]

end

/-- The fields that there are. -/
def DynField.all : List DynField :=
  [.ethSrc, .ethDst, .ethVlan, .ip4TOS, .ip4Length, .ip4ID, .ip4TTL, .ip4Protocol, .ip4Checksum, .ip4Src, .ip4Dst,
    .udpSrc, .udpDst, .udpLength, .udpChecksum, .tcpSrc, .tcpDst, .tcpSeqNumber, .tcpAckNumber, .tcpWindow,
    .tcpChecksum, .tcpUrgentPointer]

theorem length_le_of_nodup {fields : List DynField} (distinct : fields.Nodup) : fields.length ≤ 2 ^ 31 := by
  have among : fields ⊆ DynField.all := fun f _ => by cases f <;> decide
  exact (distinct.subperm among).length_le.trans (by decide)

theorem DynField.name_injective {f f' : DynField} (same : f.name = f'.name) : f = f' := by
  revert same
  cases f <;> cases f' <;> decide

theorem firstTable_eq {consts : Args} {fields : List DynField} (distinct : fields.Nodup) (first : Nat → Nat) {j : Nat}
    (inside : j < fields.length) : firstTable consts fields first fields[j].name = some (.number (first j)) := by
  have found : (fields.findIdx? fun f => f.name = fields[j].name) = some j := by
    refine findIdx?_eq_some_iff_getElem.mpr ⟨inside, decide_eq_true rfl, fun i less => ?_⟩
    intro same
    have again := DynField.name_injective (of_decide_eq_true same)
    exact absurd ((distinct.getElem_inj_iff).mp again) (Nat.ne_of_lt less)
  simp only [firstTable, found]

theorem count_pos_of_parseMode {count : Nat} {arg : ModeArg} {mode : Option UpdateMode}
    (parsed : (parseMode count arg).1 = some mode) : 0 < count := by
  refine Nat.pos_of_ne_zero fun zero => ?_
  subst zero
  cases arg <;> cases parsed

/-- The packet `Udp4`. -/
def udp4Stack : Stack where
  headers := [.ethernet, .ip4, .udp].map fun proto => getHeaderData (.keyword proto)
  known := by decide
  distinct := by decide

/-- The packet `EthernetQinQ` with zeros. -/
def qinqPkt : Pkt := [(⟨.ethernet, "eth", none, some .qinq⟩, List.replicate 22 0)]

/-- A variable for the field `ethouterVlanTag`. -/
def outerVlanTag : FlowDynvar where
  pkt := "ethouter".toList
  var := "VlanTag".toList
  applyfn := ⟨.ethernet, "outerVlanTag"⟩
  value := some (.number 1)
  func := fun k => some (.number (k + 2))

end MoonGen
