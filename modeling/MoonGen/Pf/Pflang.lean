import MoonGen.Pf.Expr

namespace MoonGen

namespace Pf

/-- How many bytes are read: the parser takes no other sizes. -/
inductive Width where
  | one | two | four
  deriving DecidableEq, Repr

def Width.bytes : Width → Nat
  | .one => 1
  | .two => 2
  | .four => 4

/-- Arithmetic of the filter language, where `L` can be addressed. `addr` is `&` in front of an access. -/
inductive Expr (L : Type) where
  | num (n : BitVec 32)
  | len
  | bin (op : Binop) (l r : Expr L)
  | load (level : L) (pos : Expr L) (width : Width)
  | addr (level : L) (pos : Expr L) (width : Width)
  deriving Repr

structure Comparison (L : Type) where
  op : Relop
  l : Expr L
  r : Expr L

inductive Clause (L : Type) where
  | true
  | false
  | fail
  | not (e : Clause L)
  | and (l r : Clause L)
  | or (l r : Clause L)
  | rel (c : Comparison L)
  | cond (test t f : Clause L)

/-- Why there is no value: the comparison does not hold, or the filter rejects the packet. -/
inductive Stop where
  | clause
  | filter
  deriving DecidableEq, Repr

/-- What an Ethernet frame starts with, and what it carries. -/
inductive Link where
  | ether | etherPayload
  deriving DecidableEq, Repr

inductive Net where
  | arp | rarp | ip | ip6
  deriving DecidableEq, Repr

inductive IpProto where
  | icmp | udp | tcp | igmp | igrp | pim | sctp | vrrp
  deriving DecidableEq, Repr

inductive Level where
  | link (l : Link)
  | net (n : Net)
  | ipPayload
  | ip6Payload
  | proto (t : IpProto)
  deriving DecidableEq, Repr

def etherType : BitVec 32 := 12

def etherPayload : Nat := 14

def ipFlags : BitVec 32 := 6

def ipProtocol : BitVec 32 := 9

def Net.number : Net → BitVec 32
  | .arp => 2054
  | .rarp => 32821
  | .ip => 2048
  | .ip6 => 34525

def etherMinPayload : Net → BitVec 32
  | .ip => 20
  | .arp => 28
  | .rarp => 28
  | .ip6 => 40

def IpProto.number : IpProto → BitVec 32
  | .icmp => 1
  | .udp => 17
  | .tcp => 6
  | .igmp => 2
  | .igrp => 9
  | .pim => 103
  | .sctp => 132
  | .vrrp => 112

def ipMinPayload : IpProto → BitVec 32
  | .icmp => 8
  | .udp => 8
  | .tcp => 20
  | .igmp => 8
  | .igrp => 8
  | .pim => 4
  | .sctp => 12
  | .vrrp => 8

/-- The numbers of these protocols are types of frames, not lengths. -/
def hasEtherProtocol (n : Net) : Comparison Link := ⟨.eq, .load .ether (.num etherType) .two, .num n.number⟩

def hasEtherProtocolMinPayload (n : Net) : Comparison Link :=
  ⟨.le, .num 0, .load .etherPayload (.num (etherMinPayload n - 1)) .one⟩

def hasIpv4Protocol (t : IpProto) : Comparison Net := ⟨.eq, .load .ip (.num ipProtocol) .one, .num t.number⟩

def hasIpv4ProtocolMinPayload (t : IpProto) : Comparison Net :=
  ⟨.le, .num 0, .load .ip (.num (ipMinPayload t + etherMinPayload .ip - 1)) .one⟩

def isFirstIpv4Fragment : Comparison Net :=
  ⟨.eq, .bin .band (.load .ip (.num ipFlags) .two) (.num 0x1fff), .num 0⟩

end Pf

end MoonGen
