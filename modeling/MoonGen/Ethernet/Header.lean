import MoonGen.Checksum.Words
import MoonGen.Ethernet.Mac

namespace MoonGen

open Memory

/-- The types of an Ethernet header. -/
inductive EtherKind
  | default
  | vlan
  | qinq
deriving DecidableEq

/-- What is given for an address. A device or a queue is given by the text of its
address. -/
inductive MacArg
  | string (mac : List Char)
  | address (mac : MacAddress)
  | number (addr : Int)
  | device (mac : List Char)
  | other
deriving DecidableEq

/-- The named arguments of an Ethernet header, which a table holds for each prefix. -/
structure EtherArgs where
  src : Option MacArg := none
  dst : Option MacArg := none
  type : Option Nat := none
  vlan : Option Nat := none
  outerVlanId : Option Nat := none
  outerVlanTag : Option Nat := none
  innerVlanTag : Option Nat := none
deriving DecidableEq

namespace EtherHeader

/-- The place of the member `type` in a header. -/
def typeOffset : EtherKind → Nat
  | .default => 12
  | .vlan => 16
  | .qinq => 20

section
variable (kind : EtherKind) (mem : Memory) (eth : Nat)

/-- The store of an address, of which a value of another type is ignored. -/
def setAddress (a : Nat) : MacArg → Memory
  | .string mac => MacAddr.setString mem a mac
  | .address mac => mem.store a mac.bytes
  | .number addr => MacAddr.set mem a (some addr)
  | .device mac => MacAddr.setString mem a mac
  | .other => mem

def setType (int : Option Nat) : Memory := setU16 mem (eth + typeOffset kind) (bswap16 (int.getD 0x0800))

def getType : Nat := bswap16 (mem.word (eth + typeOffset kind) 2)

def getVlanTag : Nat := bswap16 (mem.word (eth + 14) 2) &&& 0xFFF

def setVlanTag (int : Nat) : Memory := setU16 mem (eth + 14) (bswap16 int)

def getInnerVlanTag : Nat := bswap16 (mem.word (eth + 18) 2) &&& 0xFFF

def setInnerVlanTag (int : Option Nat) : Memory := setU16 mem (eth + 18) (bswap16 (int.getD 0))

def getOuterVlanTag : Nat := bswap16 (mem.word (eth + 14) 2) &&& 0xFFF

def setOuterVlanTag (int : Option Nat) : Memory := setU16 mem (eth + 14) (bswap16 (int.getD 0))

/-- `getOuterVlanId`, which reads the member of the tag. -/
def getOuterVlanId : Nat := bswap16 (mem.word (eth + 14) 2)

def setOuterVlanId (int : Option Nat) : Memory := setU16 mem (eth + 12) (bswap16 (int.getD 0x8100))

/-- `etherHeader:fill` -/
def fillDefault (args : EtherArgs) : Memory :=
  let mem := setAddress mem (eth + 6) (args.src.getD (.string "01:02:03:04:05:06".toList))
  let mem := setAddress mem eth (args.dst.getD (.string "07:08:09:0a:0b:0c".toList))
  setType kind mem eth args.type

/-- The rest of a function `fill`, with the arguments for the prefix. -/
def fillPrefixed (args : EtherArgs) : Memory :=
  match kind with
  | .default => fillDefault .default mem eth args
  | .vlan =>
    let mem := setU16 mem (eth + 12) 0x0081
    let mem := setVlanTag mem eth (args.vlan.getD 1)
    fillDefault .vlan mem eth args
  | .qinq =>
    let innerVlanTag := args.innerVlanTag.getD 0
    let outerVlanId := args.outerVlanId.getD 0x8100
    let outerVlanTag := args.outerVlanTag.getD 0
    let mem := setU16 mem (eth + 16) (bswap16 0x8100)
    let mem := setInnerVlanTag mem eth (some innerVlanTag)
    let mem := setOuterVlanId mem eth (some outerVlanId)
    let mem := setOuterVlanTag mem eth (some outerVlanTag)
    fillDefault .qinq mem eth args

/-- Only `etherHeader:fill` has a default for the prefix. The other two join it to a name
before they get there. -/
def fill (args : String → EtherArgs) (pre : Option String) : Except String Memory :=
  match kind, pre with
  | .default, _ => .ok (fillPrefixed .default mem eth (args (pre.getD "eth")))
  | .vlan, some pre => .ok (fillPrefixed .vlan mem eth (args pre))
  | .qinq, some pre => .ok (fillPrefixed .qinq mem eth (args pre))
  | _, none => .error "attempt to concatenate local 'pre' (a nil value)"

/-- `etherHeader:get` -/
def getDefault : EtherArgs where
  src := some (.string (MacAddr.getString mem (eth + 6)))
  dst := some (.string (MacAddr.getString mem eth))
  type := some (getType kind mem eth)

/-- The arguments that `get` returns for its prefix, which is `eth` by default for all three. -/
def get : EtherArgs :=
  match kind with
  | .default => getDefault .default mem eth
  | .vlan => { getDefault .vlan mem eth with vlan := some (getVlanTag mem eth) }
  | .qinq =>
    { getDefault .qinq mem eth with
      outerVlanId := some (getOuterVlanId mem eth)
      outerVlanTag := some (getOuterVlanTag mem eth)
      innerVlanTag := some (getInnerVlanTag mem eth) }

end

/-- The values for all members of a header. -/
structure Values where
  src : MacAddress
  dst : MacAddress
  type : UInt16
  vlan : UInt16
  outerVlanId : UInt16
  outerVlanTag : UInt16
  innerVlanTag : UInt16

namespace Values

/-- The arguments for the members that a header of a type has, with the addresses as
texts. -/
def args (values : Values) (kind : EtherKind) : EtherArgs :=
  let base : EtherArgs :=
    { src := some (.string values.src.text), dst := some (.string values.dst.text), type := some values.type.toNat }
  match kind with
  | .default => base
  | .vlan => { base with vlan := some values.vlan.toNat }
  | .qinq =>
    { base with
      outerVlanId := some values.outerVlanId.toNat
      outerVlanTag := some values.outerVlanTag.toNat
      innerVlanTag := some values.innerVlanTag.toNat }

/-- The values that the getters give back. -/
def Kept (values : Values) : EtherKind → Prop
  | .default => True
  | .vlan => values.vlan < 0x1000
  | .qinq => values.outerVlanTag < 0x1000 ∧ values.innerVlanTag < 0x1000 ∧ values.outerVlanId = values.outerVlanTag

/-- The stores of the members that a type adds. -/
def tags (values : Values) (eth : Nat) : EtherKind → List (Nat × List UInt8)
  | .default => []
  | .vlan => [(eth + 12, leBytes 2 0x0081), (eth + 14, leBytes 2 (bswap16 values.vlan.toNat))]
  | .qinq =>
    [(eth + 16, leBytes 2 (bswap16 0x8100)), (eth + 18, leBytes 2 (bswap16 values.innerVlanTag.toNat)),
      (eth + 12, leBytes 2 (bswap16 values.outerVlanId.toNat)),
      (eth + 14, leBytes 2 (bswap16 values.outerVlanTag.toNat))]

/-- The stores of `fill`. -/
def writes (values : Values) (eth : Nat) (kind : EtherKind) : List (Nat × List UInt8) :=
  values.tags eth kind ++ [(eth + 6, values.src.bytes), (eth, values.dst.bytes),
    (eth + typeOffset kind, leBytes 2 (bswap16 values.type.toNat))]

end Values

theorem fillPrefixed_args (kind : EtherKind) (mem : Memory) (eth : Nat) (values : Values) :
    fillPrefixed kind mem eth (values.args kind) = mem.storeAll (values.writes eth kind) := by
  have addresses (mem : Memory) : fillDefault kind mem eth (values.args kind) =
      mem.storeAll [(eth + 6, values.src.bytes), (eth, values.dst.bytes),
        (eth + typeOffset kind, leBytes 2 (bswap16 values.type.toNat))] := by
    cases kind <;> simp only [fillDefault, Values.args, setAddress, Option.getD_some, MacAddr.setString_text] <;> rfl
  cases kind <;> exact addresses _

theorem writes_apart (kind : EtherKind) (eth : Nat) (values : Values) :
    (values.writes eth kind).Pairwise fun v w => w.1 + w.2.length ≤ v.1 ∨ v.1 + v.2.length ≤ w.1 := by
  cases kind <;> simp [Values.writes, Values.tags, typeOffset, values.src.size, values.dst.size]

theorem bswap16_word_of_holds {mem : Memory} {a : Nat} {v : UInt16}
    (holds : mem.Holds a (leBytes 2 (bswap16 v.toNat))) : bswap16 (mem.word a 2) = v.toNat := by
  have small : bswap16 v.toNat < 256 ^ 2 := bswap16_lt v.toNat_lt
  rw [word_of_holds holds, Nat.mod_eq_of_lt small, bswap16_bswap16 v.toNat_lt]

/-- A getter of a tag keeps the lower 12 bits. -/
theorem and_mask_eq_iff (v : UInt16) : v.toNat &&& 0xFFF = v.toNat ↔ v < 0x1000 := by
  have mask : v.toNat &&& 0xFFF = v.toNat % 2 ^ 12 := Nat.and_two_pow_sub_one_eq_mod _ 12
  rw [mask, Nat.mod_eq_iff_lt (by decide), UInt16.lt_iff_toNat_lt]
  rfl

theorem fillPrefixed_holds (kind : EtherKind) (mem : Memory) (eth : Nat) (values : Values) {a : Nat} {xs : List UInt8}
    (member : (a, xs) ∈ values.writes eth kind) : (fillPrefixed kind mem eth (values.args kind)).Holds a xs := by
  rw [fillPrefixed_args]
  exact storeAll_holds mem (writes_apart kind eth values) member

theorem getDefault_fillPrefixed (kind : EtherKind) (mem : Memory) (eth : Nat) (values : Values) :
    getDefault kind (fillPrefixed kind mem eth (values.args kind)) eth = values.args .default := by
  have src : (fillPrefixed kind mem eth (values.args kind)).Holds (eth + 6) values.src.bytes :=
    fillPrefixed_holds kind mem eth values (by simp [Values.writes])
  have dst : (fillPrefixed kind mem eth (values.args kind)).Holds eth values.dst.bytes :=
    fillPrefixed_holds kind mem eth values (by simp [Values.writes])
  have type : (fillPrefixed kind mem eth (values.args kind)).Holds (eth + typeOffset kind)
      (leBytes 2 (bswap16 values.type.toNat)) :=
    fillPrefixed_holds kind mem eth values (by simp [Values.writes])
  rw [getDefault, getType, MacAddr.getString_of_holds src, MacAddr.getString_of_holds dst, bswap16_word_of_holds type]
  rfl

/-- With a prefix, what is given to `fill` comes back from `get` unless a tag has a priority or
the outer VLAN id is not the outer tag. -/
theorem get_fillPrefixed_iff (kind : EtherKind) (mem : Memory) (eth : Nat) (values : Values) :
    get kind (fillPrefixed kind mem eth (values.args kind)) eth = values.args kind ↔ values.Kept kind := by
  have base := getDefault_fillPrefixed kind mem eth values
  cases kind with
  | default => exact iff_of_true base trivial
  | vlan =>
    have tag := bswap16_word_of_holds
      (fillPrefixed_holds .vlan mem eth values (show (eth + 14, _) ∈ _ from .tail _ (.head _)))
    rw [get, base, getVlanTag, tag]
    simp only [Values.args, EtherArgs.mk.injEq, Option.some.injEq, true_and, and_true, and_mask_eq_iff, Values.Kept]
  | qinq =>
    have inner := bswap16_word_of_holds
      (fillPrefixed_holds .qinq mem eth values (show (eth + 18, _) ∈ _ from .tail _ (.head _)))
    have outer := bswap16_word_of_holds
      (fillPrefixed_holds .qinq mem eth values (show (eth + 14, _) ∈ _ from .tail _ (.tail _ (.tail _ (.head _)))))
    rw [get, base, getOuterVlanId, getOuterVlanTag, getInnerVlanTag, outer, inner]
    simp only [Values.args, EtherArgs.mk.injEq, Option.some.injEq, true_and, and_mask_eq_iff, Values.Kept,
      UInt16.toNat_inj]
    constructor
    · rintro ⟨id, tag, tag'⟩
      exact ⟨tag, tag', id.symm⟩
    · rintro ⟨tag, tag', id⟩
      exact ⟨id.symm, tag, tag'⟩

/-- A call without a prefix comes back for a default header only. -/
theorem ethernet_round_trip_iff (kind : EtherKind) (mem : Memory) (eth : Nat) (values : Values) (pre : Option String) :
    (fill kind mem eth (fun name => if name = pre.getD "eth" then values.args kind else {}) pre).map
        (fun mem => get kind mem eth) = .ok (values.args kind) ↔
      values.Kept kind ∧ (kind = .default ∨ pre.isSome) := by
  rw [← get_fillPrefixed_iff kind mem eth values]
  cases pre with
  | some pre => cases kind <;> simp [fill, Except.map]
  | none => cases kind <;> simp [fill, Except.map]

/-- A VLAN header without a prefix is not filled. With one, a tag with priority 1 comes back
without it, and an outer VLAN id of 0x88a8 comes back as the tag. -/
theorem ethernet_round_trip_lossy :
    ∃ src dst : MacAddress,
      let base : EtherArgs := { src := some (.string src.text), dst := some (.string dst.text), type := some 0x0800 }
      fill .vlan (fun _ => 0) 0 (fun _ => { base with vlan := some 5 }) none =
        .error "attempt to concatenate local 'pre' (a nil value)" ∧
      (fill .vlan (fun _ => 0) 0 (fun _ => { base with vlan := some 0x2001 }) (some "eth")).map
        (fun mem => (get .vlan mem 0).vlan) = .ok (some 1) ∧
      (fill .qinq (fun _ => 0) 0 (fun _ => { base with
          outerVlanId := some 0x88a8, outerVlanTag := some 5, innerVlanTag := some 6 }) (some "eth")).map
        (fun mem => (get .qinq mem 0).outerVlanId) = .ok (some 5) :=
  ⟨⟨[1, 2, 3, 4, 5, 6], rfl⟩, ⟨[7, 8, 9, 10, 11, 12], rfl⟩, rfl, by decide +kernel, by decide +kernel⟩

end EtherHeader

end MoonGen
