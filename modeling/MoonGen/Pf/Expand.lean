import MoonGen.Pf.Lower
import MoonGen.Pf.Pflang

namespace MoonGen

namespace Pf

/-- A test that has to be true for what follows to be evaluated, and what the comparison comes to if it is not. -/
structure Guard where
  test : Filter
  stop : Stop

def Stop.pred : Stop → Filter
  | .clause => .false
  | .filter => .fail

/-- Products are taken with 64 bits. -/
def Binop.wide (op : Binop) : Binop := if op = .mul then .mul64 else op

/-- What is found in the packet, in the byte order of the network. -/
def Width.read (width : Width) (found : Arith) : Arith :=
  match width with
  | .one => found
  | .two => .un .ntohs found
  | .four => .un .uint32 (.un .ntohl found)

section Expand
variable {L : Type} (offset : L → Arith × List Guard)

def expandArith : Expr L → Arith × List Guard
  | .num n => (.num n.toNat, [])
  | .len => (.name .len, [])
  | .bin op l r =>
    let lhs := expandArith l
    let rhs := expandArith r
    (.un .uint32 (.bin op.wide lhs.1 rhs.1),
      lhs.2 ++ rhs.2 ++ if op.wide = .div then [⟨.rel .ne rhs.1 (.num 0), .filter⟩] else [])
  | .load level pos width =>
    let start := offset level
    let lhs := expandArith pos
    let inside := .rel .le (.bin .add (.bin .add start.1 lhs.1) (.num width.bytes)) (.name .len)
    (width.read (.load (.bin .add start.1 lhs.1) width.bytes), start.2 ++ lhs.2 ++ [⟨inside, .filter⟩])
  | .addr level pos width =>
    let start := offset level
    let lhs := expandArith pos
    let inside := .rel .le (.bin .add (.bin .add start.1 lhs.1) (.num width.bytes)) (.name .len)
    (.bin .add start.1 lhs.1, start.2 ++ lhs.2 ++ [⟨inside, .clause⟩])

def expandRelop (c : Comparison L) : Filter × List Guard :=
  (.rel c.op (expandArith offset c.l).1 (expandArith offset c.r).1, (expandArith offset c.l).2 ++ (expandArith offset c.r).2)

/-- The first guard is tested first. -/
def wrapGuards (guards : List Guard) (res : Filter) : Filter :=
  guards.foldr (fun g res => .cond g.test res g.stop.pred) res

def expandBool : Clause L → Filter
  | .true => .true
  | .false => .false
  | .fail => .fail
  | .not e => .cond (expandBool e) .false .true
  | .and l r => .cond (expandBool l) (expandBool r) .false
  | .or l r => .cond (expandBool l) .true (expandBool r)
  | .rel c => wrapGuards (expandRelop offset c).2 (expandRelop offset c).1
  | .cond test t f => .cond (expandBool test) (expandBool t) (expandBool f)

def guardExpr (c : Comparison L) : List Guard :=
  (expandRelop offset c).2 ++ [⟨(expandRelop offset c).1, .clause⟩]

end Expand

def linkOffset : Link → Arith × List Guard
  | .ether => (.num 0, [])
  | .etherPayload => (.num etherPayload, [])

def guardEtherProtocol (n : Net) : List Guard :=
  guardExpr linkOffset (hasEtherProtocol n) ++ guardExpr linkOffset (hasEtherProtocolMinPayload n)

def netOffset (n : Net) : Arith × List Guard := (.num etherPayload, guardEtherProtocol n)

def guardIpv4Protocol (t : IpProto) : List Guard :=
  guardExpr netOffset (hasIpv4Protocol t) ++ guardExpr netOffset (hasIpv4ProtocolMinPayload t)

def guardFirstIpv4Fragment : List Guard := guardExpr netOffset isFirstIpv4Fragment

def ipv4PayloadOffset (t : Option IpProto) : Arith × List Guard :=
  let ip := netOffset .ip
  let guards := ip.2 ++
    match t with
    | some t => guardIpv4Protocol t
    | none => []
  (.bin .add (.bin .lshift (.bin .band (.load ip.1 1) (.num 0xf)) (.num 2)) ip.1, guards ++ guardFirstIpv4Fragment)

def ipv6PayloadOffset : Arith × List Guard :=
  let ip6 := netOffset .ip6
  (.bin .add ip6.1 (.num 40), ip6.2)

def expandOffset : Level → Arith × List Guard
  | .link l => linkOffset l
  | .net n => netOffset n
  | .ipPayload => ipv4PayloadOffset none
  | .ip6Payload => ipv6PayloadOffset
  | .proto t => ipv4PayloadOffset (some t)

def expand (e : Clause Level) : Filter := expandBool expandOffset e

end Pf

end MoonGen
