import Mathlib.Algebra.GroupWithZero.Nat

namespace MoonGen.Packet

/-- The protocols of `proto/`. Both keywords `eth` and `ethernet` stand for the
first. -/
inductive Proto where
  | ethernet | ip4 | ip6 | arp | icmp | udp | tcp | ptp | vxlan | esp | ah | dns | ipfix | sflow | lacp | gre
  deriving DecidableEq, Repr

inductive SubType where
  | default | vlan | qinq | ip4 | ip6
  deriving DecidableEq, Repr

/-- The member that a header gets when no name is given. -/
def Proto.member : Proto → String
  | .ethernet => "eth"
  | .ip4 => "ip4"
  | .ip6 => "ip6"
  | .arp => "arp"
  | .icmp => "icmp"
  | .udp => "udp"
  | .tcp => "tcp"
  | .ptp => "ptp"
  | .vxlan => "vxlan"
  | .esp => "esp"
  | .ah => "ah"
  | .dns => "dns"
  | .ipfix => "ipfix"
  | .sflow => "sflow"
  | .lacp => "lacp"
  | .gre => "gre"

def Proto.defaultType : Proto → Option SubType
  | .ethernet => some .default
  | .sflow => some .ip4
  | _ => none

/-- An argument table `{ header, name = member, length = length, subType = type }`. -/
structure ArgTable where
  proto : Proto
  name : Option String
  length : Option Nat
  subType : Option SubType
  deriving DecidableEq, Repr

/-- An argument of `createStack`. -/
inductive Arg where
  | keyword (proto : Proto)
  | table (fields : ArgTable)
  deriving DecidableEq, Repr

@[ext] structure HeaderData where
  proto : Proto
  name : String
  length : Option Nat
  subType : Option SubType
  deriving Repr

-- Field by field, without casts between the fields: this one evaluates in the kernel.
instance : DecidableEq HeaderData := fun g h => decidable_of_iff
  (g.proto = h.proto ∧ g.name = h.name ∧ g.length = h.length ∧ g.subType = h.subType) HeaderData.ext_iff.symm

def getHeaderData : Arg → HeaderData
  | .keyword proto => ⟨proto, proto.member, none, proto.defaultType⟩
  | .table t => ⟨t.proto, t.name.getD t.proto.member, t.length, t.subType.or t.proto.defaultType⟩

/-- The members of a header struct by their sizes, without the member of

variable size. -/
def headerFormat : Proto → Option SubType → Option (List Nat)
  | .ethernet, some .default => some [6, 6, 2]
  | .ethernet, some .vlan => some [6, 6, 2, 2, 2]
  | .ethernet, some .qinq => some [6, 6, 2, 2, 2, 2, 2]
  | .ip4, none => some [1, 1, 2, 2, 2, 1, 1, 2, 4, 4]
  | .ip6, none => some [4, 2, 1, 1, 16, 16]
  | .arp, none => some [2, 2, 1, 1, 2, 6, 4, 6, 4]
  | .icmp, none => some [1, 1, 2]
  | .udp, none => some [2, 2, 2, 2]
  | .tcp, none => some [2, 2, 4, 4, 1, 1, 2, 2, 2]
  | .ptp, none => some [1, 1, 2, 1, 1, 2, 8, 4, 3, 5, 2, 2, 1, 1]
  | .vxlan, none => some [1, 3, 3, 1]
  | .esp, none => some [4, 4, 8]
  | .ah, none => some [1, 1, 2, 4, 4, 8, 16]
  | .dns, none => some [2, 2, 2, 2, 2, 2]
  | .ipfix, none => some [2, 2, 4, 4, 4]
  | .sflow, some .ip4 => some [4, 4, 4, 4, 4, 4, 4]
  | .sflow, some .ip6 => some [4, 4, 16, 4, 4, 4, 4]
  | .lacp, none => some [1, 1, 1, 1, 15, 3, 1, 1, 15, 3, 1, 1, 2, 64]
  | .gre, none => some [2, 2]
  | _, _ => none

/-- Whether the protocol table names a member of variable size. The one of `dns`
is an undefined global, and `sflow` has one only in the tables of its sub types,
where `defineHeaderStruct` does not look. -/
def headerVariableMember : Proto → Bool
  | .ip4 | .icmp | .tcp => true
  | _ => false

/-- The Ethernet types of the headers that can follow. -/
def mapNameType : List (Proto × Nat) :=
  [(.ip4, 0x0800), (.ip6, 0x86dd), (.arp, 0x0806), (.ptp, 0x88f7), (.lacp, 0x8809)]

/-- The protocol numbers of the headers that can follow. The map of `ip6` differs
from that of `ip4` in the value for `icmp`. -/
def mapNameProto (icmp : Nat) : List (Proto × Nat) :=
  [(.icmp, icmp), (.udp, 0x11), (.tcp, 0x06), (.esp, 0x32), (.ah, 0x33), (.gre, 0x2f)]

/-- The ports of the headers that can follow. -/
def mapNamePort : List (Proto × List Nat) :=
  [(.ptp, [319, 320]), (.vxlan, [4789]), (.sflow, [6343]), (.dns, [53]), (.ipfix, [4739])]

namespace HeaderData

/-- The size of `struct proto_subType_header`. -/
def baseSize (h : HeaderData) : Nat := ((headerFormat h.proto h.subType).getD []).sum

/-- The size of the member of variable size. -/
def variableSize (h : HeaderData) : Nat := if headerVariableMember h.proto then h.length.getD 0 else 0

/-- The size of the struct that `defineHeaderStruct` makes for the header. -/
def size (h : HeaderData) : Nat := h.baseSize + h.variableSize

end HeaderData

/-- What `createStack` accepts: every sub type is one of its protocol, and no
two headers have the same member name. -/
structure Stack where
  headers : List HeaderData
  known : ∀ h ∈ headers, (headerFormat h.proto h.subType).isSome
  distinct : (headers.map (·.name)).Nodup

def packetMakeStruct (headers : List HeaderData) : Option Stack :=
  if accepted : (∀ h ∈ headers, (headerFormat h.proto h.subType).isSome) ∧ (headers.map (·.name)).Nodup then
    some ⟨headers, accepted.1, accepted.2⟩
  else none

def createStack (args : List Arg) : Option Stack := packetMakeStruct (args.map getHeaderData)

end MoonGen.Packet
