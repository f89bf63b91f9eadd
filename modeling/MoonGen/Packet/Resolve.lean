import MoonGen.Lib.Machine
import MoonGen.Lib.Memory
import MoonGen.Packet.Stack

namespace MoonGen.Packet

/-- A `uint16_t` of a frame in network byte order. -/
def field16 (frame : Memory) (a : Nat) : Nat := (frame a).toNat * 256 + (frame (a + 1)).toNat

/-- The key of the entry that has a value. No value stands twice in a map. -/
def nameOf (map : List (Proto × Nat)) (value : Nat) : Option Proto :=
  (map.find? (·.2 = value)).map (·.1)

namespace HeaderData

/-- The Ethernet type of a header at an address. -/
def getType (h : HeaderData) (frame : Memory) (a : Nat) : Nat :=
  match h.subType with
  | some .vlan => field16 frame (a + 16)
  | some .qinq => field16 frame (a + 20)
  | _ => field16 frame (a + 12)

def getSubType (h : HeaderData) (frame : Memory) (a : Nat) : Option SubType :=
  match h.proto, h.subType with
  | .ethernet, some .vlan => some .vlan
  | .ethernet, some .qinq => some .qinq
  | .ethernet, _ => some (if h.getType frame a = 0x8100 then .vlan else .default)
  | _, _ => none

def getVariableLength (h : HeaderData) (frame : Memory) (a : Nat) : Option Int :=
  match h.proto with
  | .ip4 => some (((frame a).toNat % 16 - 5 : Int) * 4)
  | .tcp =>
    let r := ((frame (a + 12)).toNat / 16 % 16 - 5 : Int) * 4
    some (if r ≤ 0 then 0 else r)
  | _ => none

/-- The header that follows, if there is one. For `gre` the function is an error:
it calls a method that the header does not have. -/
def resolveNextHeader (h : HeaderData) (frame : Memory) (a : Nat) : Option (Option Proto) :=
  match h.proto with
  | .ethernet => some (nameOf mapNameType (h.getType frame a))
  | .ip4 => some (nameOf (mapNameProto 0x01) (frame (a + 9)).toNat)
  | .ip6 => some (nameOf (mapNameProto 0x3a) (frame (a + 6)).toNat)
  | .udp => some ((mapNamePort.find? (field16 frame (a + 2) ∈ ·.2)).map (·.1))
  | .vxlan => some (some .ethernet)
  | .gre => none
  | _ => some none

/-- What a header has behind its fixed part in a frame. A length field below the
fixed part counts as the fixed part. -/
def actualVariable (h : HeaderData) (frame : Memory) (a : Nat) : Nat :=
  ((h.getVariableLength frame a).getD 0).toNat

end HeaderData

/-- An element of the list that `getArgs` returns: a string, or a table, which
other packet types may hold as well. -/
inductive ArgRef where
  | keyword (proto : Proto)
  | table (address : Nat)
  deriving DecidableEq, Repr

/-- A packet type: the name of its struct, as the list of what it is spelled
from, the members of the struct with their sizes, and its argument list. -/
structure PacketType where
  name : List HeaderData
  struct : List (String × Nat)
  args : List ArgRef
  deriving Repr

/-- The byte at which the last member of the struct starts. -/
def PacketType.lastOffset (type : PacketType) : Nat := (type.struct.dropLast.map (·.2)).sum

/-- The argument tables of a Lua VM and `packetStructs`. -/
structure Vm where
  tables : List ArgTable
  types : List PacketType
  deriving Repr

namespace Vm

def deref (vm : Vm) : ArgRef → Arg
  | .keyword proto => .keyword proto
  | .table address => .table (vm.tables.getD address ⟨.ethernet, none, none, none⟩)

def data (vm : Vm) (ref : ArgRef) : HeaderData := getHeaderData (vm.deref ref)

def find (vm : Vm) (name : List HeaderData) : Option PacketType := vm.types.find? (·.name = name)

def Registered (vm : Vm) (name : List HeaderData) : Prop := ∃ type ∈ vm.types, type.name = name

instance (vm : Vm) (name : List HeaderData) : Decidable (vm.Registered name) :=
  inferInstanceAs (Decidable (∃ type ∈ vm.types, type.name = name))

/-- `createStack` with the elements of an argument list. It is an error when two
members have the same name, and nothing happens when the struct exists. -/
def createStack (vm : Vm) (args : List ArgRef) : Option Vm :=
  let headers := args.map vm.data
  (packetMakeStruct headers).map fun _ =>
    if vm.Registered headers then vm
    else { vm with types := vm.types ++ [⟨headers, headers.map fun h => (h.name, h.size), args⟩] }

/-- A call of `createStack` in a script: the tables among its arguments are new. -/
def define (vm : Vm) (args : List Arg) : Vm :=
  let (tables, refs) := args.foldl (fun (tables, refs) arg =>
    match arg with
    | .keyword proto => (tables, refs ++ [.keyword proto])
    | .table fields => (tables ++ [fields], refs ++ [.table tables.length])) (vm.tables, ([] : List ArgRef))
  (createStack { vm with tables } refs).getD vm

/-- `getArgs` of a packet type. -/
def argsOf (vm : Vm) (name : List HeaderData) : List ArgRef := ((vm.find name).map (·.args)).getD []

/-- The length in the last element of the argument list of a type. A string is
replaced in that list only. A table is changed for all that hold it. -/
def setLength (vm : Vm) (name : List HeaderData) (len : Nat) : Vm :=
  match (vm.argsOf name).getLast? with
  | some (.keyword proto) =>
    { tables := vm.tables ++ [⟨proto, none, some len, none⟩]
      types := vm.types.map fun type =>
        if type.name = name then { type with args := type.args.dropLast ++ [.table vm.tables.length] } else type }
  | some (.table address) =>
    { vm with tables := vm.tables.modify address fun fields => { fields with length := some len } }
  | none => vm

/-- The types with one header of the given protocol more. The loop over `pairs`
stops at the first one it meets, and which one that is, is not known. -/
def similar (vm : Vm) (name : List HeaderData) (proto : Proto) (choice : Nat) : Option (List HeaderData) :=
  let found := (vm.types.map (·.name)).filter fun other =>
    other.dropLast = name ∧ other.getLast?.map (·.proto) = some proto
  found[choice % found.length]?

end Vm

/-- The member of a new header: the loop over the members so far that counts
those which have the name. -/
def uniqueMember (nextMember : String) (members : List String) : String :=
  (members.foldl (fun (counter, newMember) member =>
    if member = newMember then (counter + 1, nextMember ++ toString (counter + 1)) else (counter, newMember))
    (1, nextMember)).2

/-- What a call of `resolveLastHeader` ends in: the call for another type, the
packet type of the frame, or an error. -/
inductive Outcome where
  | again (name : List HeaderData)
  | returned
  | raised
  deriving DecidableEq, Repr

namespace Vm

/-- `ffi.cast` to a struct, which is an error when there is none of the name, and
the call for that type. -/
def cast (vm : Vm) (name : List HeaderData) : Outcome := if vm.Registered name then .again name else .raised

/-- The last resort: a new packet type with the next header behind those of the
current one. -/
def createNext (vm : Vm) (name : List HeaderData) (next : HeaderData) : Vm × Outcome :=
  let args := vm.argsOf name
  let newMember := uniqueMember next.name (args.map fun ref => (vm.data ref).name)
  let extended := { vm with tables := vm.tables ++ [⟨next.proto, some newMember, next.length, next.subType⟩] }
  match extended.createStack (args ++ [.table vm.tables.length]) with
  | none => (extended, .raised)
  | some created => (created, created.cast (name ++ [{ next with name := newMember }]))

/-- The last part of `packetResolveLastHeader`: the header that follows. -/
def resolveNext (vm : Vm) (name : List HeaderData) (nextHeader : Option (Option Proto)) (choice : Nat) : Vm × Outcome :=
  match nextHeader with
  | none => (vm, .raised)
  | some none => (vm, .returned)
  | some (some proto) =>
    let next := getHeaderData (.keyword proto)
    if vm.Registered (name ++ [next]) then (vm, .again (name ++ [next]))
    else
      match vm.similar name proto choice with
      | some found => (vm, .again found)
      | none => vm.createNext name next

/-- The second part: the length of the last header. -/
def resolveLength (vm : Vm) (name : List HeaderData) (last : HeaderData) (len : Option Int)
    (nextHeader : Option (Option Proto)) (choice : Nat) : Vm × Outcome :=
  if 0 < len.getD 0 then
    let changed := vm.setLength name (len.getD 0).toNat
    let newName := name.dropLast ++ [{ last with length := some (len.getD 0).toNat }]
    match if changed.Registered newName then some changed else changed.createStack (changed.argsOf name) with
    | none => (changed, .raised)
    | some created =>
      if name ≠ newName then (created, created.cast newName) else created.resolveNext name nextHeader choice
  else vm.resolveNext name nextHeader choice

/-- `packetResolveLastHeader` for a frame that is seen as a packet type. -/
def resolveLastHeader (vm : Vm) (frame : Memory) (name : List HeaderData) (choice : Nat) : Vm × Outcome :=
  match vm.find name, name.getLast? with
  | some type, some last =>
    let a := type.lastOffset
    let len := last.getVariableLength frame a
    let nextHeader := last.resolveNextHeader frame a
    match last.getSubType frame a with
    | some subType =>
      if last.subType = some subType then vm.resolveLength name last len nextHeader choice
      else (vm, vm.cast (name.dropLast ++ [{ last with subType := some subType }]))
    | none => vm.resolveLength name last len nextHeader choice
  | _, _ => (vm, .raised)

end Vm

/-- The calls of `createStack` at the end of `packet.lua`. -/
def predefined : List (List Arg) :=
  let eth := Arg.keyword .ethernet
  let ip4 := Arg.keyword .ip4
  let ip6 := Arg.keyword .ip6
  let udp := Arg.keyword .udp
  let gre := Arg.keyword .gre
  let etherQinQ := Arg.table ⟨.ethernet, some "etherQinQ", none, some .qinq⟩
  let nestedIp4 := Arg.table ⟨.ip4, some "nestedIp4", none, none⟩
  let nestedIp6 := Arg.table ⟨.ip6, some "nestedIp6", none, none⟩
  [[], [eth], [.table ⟨.ethernet, none, none, some .vlan⟩], [.table ⟨.ethernet, none, none, some .qinq⟩],
    [eth, ip4], [eth, ip6], [eth, .keyword .arp], [eth, ip4, .keyword .icmp], [eth, ip6, .keyword .icmp],
    [eth, ip4, udp], [eth, ip6, udp], [eth, ip4, .keyword .tcp], [eth, ip6, .keyword .tcp],
    [eth, .keyword .ptp], [eth, ip4, udp, .keyword .ptp], [eth, ip4, udp, .keyword .vxlan],
    [eth, ip4, udp, .keyword .vxlan, .table ⟨.ethernet, some "innerEth", none, none⟩],
    [eth, ip4, .keyword .esp], [eth, ip6, .keyword .esp], [eth, ip4, .keyword .ah],
    [eth, ip4, udp, .keyword .dns], [eth, ip6, udp, .keyword .dns],
    [eth, ip4, udp, .table ⟨.sflow, none, none, some .ip4⟩], [eth, ip4, udp, .keyword .ipfix],
    [eth, .keyword .lacp], [eth, ip4, gre], [eth, ip6, gre],
    [eth, ip4, gre, etherQinQ, nestedIp4], [eth, ip6, gre, etherQinQ, nestedIp6],
    [eth, ip4, gre, etherQinQ, .keyword .arp], [eth, ip4, gre, etherQinQ, nestedIp4, udp],
    [eth, ip6, gre, etherQinQ, nestedIp6, udp]]

/-- The VM when the library is loaded. -/
def Vm.load : Vm := predefined.foldl Vm.define ⟨[], []⟩

/-- A VM that resolves one frame after another: the frame and the type it is seen
as while a resolution goes on, and the type that the last step has returned. -/
structure Resolver where
  vm : Vm
  current : Option (Memory × List HeaderData)
  returned : Option (Memory × List HeaderData)

/-- The start of a resolution, or one call of `resolveLastHeader`. -/
inductive ResolverAction where
  | get (frame : Memory)
  | call (choice : Nat)

namespace Resolver

def Enabled (s : Resolver) : ResolverAction → Prop
  | .get _ => s.current = none
  | .call _ => s.current.isSome

/-- A resolution begins with the Ethernet packet. An error ends it, and the VM
stays as it is then. -/
def step (s : Resolver) : ResolverAction → Resolver
  | .get frame => { s with current := some (frame, [getHeaderData (.keyword .ethernet)]), returned := none }
  | .call choice =>
    match s.current with
    | none => s
    | some (frame, name) =>
      match s.vm.resolveLastHeader frame name choice with
      | (vm, .again name) => ⟨vm, some (frame, name), none⟩
      | (vm, .returned) => ⟨vm, none, some (frame, name)⟩
      | (vm, .raised) => ⟨vm, none, none⟩

end Resolver

/-- The runs of a VM that resolves frames. -/
def resolver : Machine Resolver ResolverAction where
  start s := s = ⟨.load, none, none⟩
  enabled := Resolver.Enabled
  next := Resolver.step

end MoonGen.Packet
