import MoonGen.Ethernet.Header
import MoonGen.Header.Fields
import MoonGen.Packet.Length
import MoonGen.Utils.IpText

namespace MoonGen.Packet.Named

open Memory

/-- A value of a named argument. -/
inductive Value where
  | number (x : ℚ)
  | string (s : String)
  | boolean (b : Bool)
  | object (id : Nat)
  deriving DecidableEq

/-- Only `false` and a missing value fail a test. -/
def Value.truthy : Value → Bool
  | .boolean b => b
  | _ => true

/-- What the setters make of the bytes of a header, those that take the named argument
with a suffix and those that take none, and the number for which arithmetic takes a value.
Both can fail. -/
structure Setters where
  arith : Value → Option ℚ
  set : HeaderData → String → Option Value → List UInt8 → Option (List UInt8)
  own : HeaderData → String → List UInt8 → List UInt8

/-- A setter of a header at the address zero, which changes only its member. -/
structure HeaderSetter where
  offset : Nat
  width : Nat
  run : Option Value → Memory → Option Memory
  frame : ∀ {v : Option Value} {mem mem' : Memory}, run v mem = some mem' →
    ∀ b, b < offset ∨ offset + width ≤ b → mem' b = mem b

/-- The number that a setter gets, if it does not take its default. -/
def number : Option Value → Option (Option ℚ)
  | none | some (.boolean false) => some none
  | some (.number x) => some (some x)
  | _ => none

/-- A number that is natural. Others are left out. -/
def natural (v : Option Value) : Option (Option Nat) :=
  (number v).bind fun x =>
    if x.all (fun x => x.den = 1 ∧ 0 ≤ x.num) then some (x.map fun x => x.num.toNat) else none

/-- What a MAC address is given as. Devices and objects of C are left out. -/
def macArg : Option Value → Option MacArg
  | some (.string s) => some (.string s.toList)
  | some (.number x) => if x.den = 1 then some (.number x.num) else none
  | some (.object _) => none
  | none | some (.boolean _) => some .other

/-- The bits of an IPv4 address. Objects of C are left out. -/
def ip4Bits : Option Value → Option (BitVec 32)
  | some (.string s) => (parseIP4Address s.toList).map (.ofInt 32)
  | some (.number x) => some (tobit x)
  | _ => none

/-- The four bytes of a word in network byte order. -/
def longBytes (bits : BitVec 32) : List UInt8 := leBytes 4 (Bytes.bswap 4 bits.toNat)

/-- The bytes of a header at the address zero. -/
def headerMemory (bytes : List UInt8) : Memory := ofFile bytes fun _ => 0

namespace HeaderSetter

/-- A setter that stores some bytes, if it gets what it takes. -/
def storing {α : Type} (offset width : Nat) (takes : Option Value → Option α) (bytes : α → List UInt8)
    (length : ∀ x, (bytes x).length = width) : HeaderSetter where
  offset := offset
  width := width
  run v mem := (takes v).map fun x => mem.store offset (bytes x)
  frame := by
    intro v mem mem' set b outside
    obtain ⟨x, -, rfl⟩ := Option.map_eq_some_iff.mp set
    exact store_of_outside mem (by rwa [length])

/-- A setter that replaces bits of its member. -/
def packed (offset width : Nat) (f : Memory → Option Nat → Memory)
    (frame : ∀ mem int b, b < offset ∨ offset + width ≤ b → f mem int b = mem b) : HeaderSetter where
  offset := offset
  width := width
  run v mem := (natural v).map (f mem)
  frame := by
    intro v mem mem' set b outside
    obtain ⟨int, -, rfl⟩ := Option.map_eq_some_iff.mp set
    exact frame mem int b outside

/-- `self.member = int or default` -/
def byte (offset default : Nat) : HeaderSetter :=
  storing offset 1 natural (fun int => [.ofNat (int.getD default)]) fun _ => rfl

/-- `self.member = hton16(int or default)` -/
def word (offset default : Nat) : HeaderSetter :=
  storing offset 2 number (fun int => leBytes 2 (hton16 (int.getD default)).toNat) fun _ => length_leBytes 2 _

/-- `self.member = hton(int or default)` -/
def long (offset default : Nat) : HeaderSetter :=
  storing offset 4 number (fun int => longBytes (tobit (int.getD default))) fun _ => length_leBytes 4 _

/-- The setters of an IPv4 address, for a text or a number. -/
def ip4 (offset : Nat) : HeaderSetter := storing offset 4 ip4Bits longBytes fun _ => length_leBytes 4 _

/-- The setters of a MAC address. -/
def mac (offset : Nat) : HeaderSetter where
  offset := offset
  width := 6
  run v mem := (macArg v).map (EtherHeader.setAddress mem offset)
  frame := by
    intro v mem mem' set b outside
    obtain ⟨arg, -, rfl⟩ := Option.map_eq_some_iff.mp set
    cases arg with
    | address mac => exact store_of_outside mem (by rwa [mac.size])
    | other => rfl
    | string | number | device => exact store_of_outside mem outside

/-- `setUrg` and its like, which are called for a value other than zero. -/
def flag (mask : UInt8) : HeaderSetter where
  offset := 13
  width := 1
  run v mem :=
    some (if v.any Value.truthy ∧ v ≠ some (.number 0) then mem.set 13 (mem 13 ||| mask) else mem)
  frame := by
    intro v mem mem' set b outside
    rw [← Option.some.inj set]
    split
    · exact set_of_ne mem (by omega) _
    · rfl

/-- The call of a setter for the bytes of a header. -/
def set (s : HeaderSetter) (v : Option Value) (bytes : List UInt8) : Option (List UInt8) :=
  (s.run v (headerMemory bytes)).map (·.slice 0 bytes.length)

end HeaderSetter

theorem setU16_outside (mem : Memory) (a v : Nat) {b : Nat} (outside : b < a ∨ a + 2 ≤ b) : setU16 mem a v b = mem b :=
  setU16_of_ne mem a v (by omega) (by omega)

theorem set_outside (mem : Memory) (a : Nat) (x : UInt8) {b : Nat} (outside : b < a ∨ a + 1 ≤ b) :
    mem.set a x b = mem b :=
  set_of_ne mem (by omega) x

theorem set_set_outside (mem : Memory) (a : Nat) (x y : UInt8) {b : Nat} (outside : b < a ∨ a + 2 ≤ b) :
    (mem.set a x).set (a + 1) y b = mem b := by
  rw [set_of_ne _ (by omega), set_of_ne mem (by omega)]

section
open HeaderSetter

/-- The setters that `etherHeader:fill` calls. -/
def etherSetters (kind : EtherKind) : List (String × HeaderSetter) :=
  [("Src", mac 6), ("Dst", mac 0),
    ("Type", packed (EtherHeader.typeOffset kind) 2 (fun mem int => EtherHeader.setType kind mem 0 int)
      fun mem int b outside => setU16_outside mem _ _ (by rwa [Nat.zero_add]))]

/-- The setters that `fill` calls for the named arguments of a header. Of the protocols
only these are modelled. -/
def headerSetters : Proto → Option SubType → List (String × HeaderSetter)
  | .ethernet, some .vlan =>
    ("Vlan", packed 14 2 (fun mem int => EtherHeader.setVlanTag mem 0 (int.getD 1))
      fun mem _ _ => setU16_outside mem 14 _) :: etherSetters .vlan
  | .ethernet, some .qinq =>
    ("innerVlanTag", packed 18 2 (fun mem int => EtherHeader.setInnerVlanTag mem 0 (some (int.getD 0)))
      fun mem _ _ => setU16_outside mem 18 _) ::
    ("outerVlanId", packed 12 2 (fun mem int => EtherHeader.setOuterVlanId mem 0 (some (int.getD 0x8100)))
      fun mem _ _ => setU16_outside mem 12 _) ::
    ("outerVlanTag", packed 14 2 (fun mem int => EtherHeader.setOuterVlanTag mem 0 (some (int.getD 0)))
      fun mem _ _ => setU16_outside mem 14 _) :: etherSetters .qinq
  | .ethernet, _ => etherSetters .default
  | .ip4, _ =>
    [("Version", packed 0 1 (fun mem int => Ip4Header.setVersion mem 0 int) fun mem _ _ => set_outside mem 0 _),
      ("HeaderLength", packed 0 1 (fun mem int => Ip4Header.setHeaderLength mem 0 int)
        fun mem _ _ => set_outside mem 0 _),
      ("TOS", byte 1 0), ("Length", word 2 48), ("ID", word 4 0),
      ("Flags", packed 6 2 (fun mem int => Ip4Header.setFlags mem 0 int) fun mem _ _ => setU16_outside mem 6 _),
      ("Fragment", packed 6 2 (fun mem int => Ip4Header.setFragment mem 0 int)
        fun mem _ _ => setU16_outside mem 6 _),
      ("TTL", byte 8 64), ("Protocol", byte 9 0x11), ("Checksum", word 10 0), ("Src", ip4 12), ("Dst", ip4 16)]
  | .udp, _ => [("Src", word 0 1024), ("Dst", word 2 1025), ("Length", word 4 28), ("Checksum", word 6 0)]
  | .tcp, _ =>
    [("Src", word 0 1025), ("Dst", word 2 1024), ("SeqNumber", long 4 0), ("AckNumber", long 8 0),
      ("DataOffset", packed 12 1 (fun mem int => TcpHeader.setDataOffset mem 0 int)
        fun mem _ _ => set_outside mem 12 _),
      ("Reserved", packed 12 2 (fun mem int => TcpHeader.setReserved mem 0 int)
        fun mem _ _ => set_set_outside mem 12 _ _),
      ("Flags", packed 13 1 (fun mem int => TcpHeader.setFlags mem 0 int) fun mem _ _ => set_outside mem 13 _),
      ("Urg", flag 0x20), ("Ack", flag 0x10), ("Psh", flag 0x08), ("Rst", flag 0x04), ("Syn", flag 0x02),
      ("Fin", flag 0x01), ("Window", word 14 29200), ("Checksum", word 16 0), ("UrgentPointer", word 18 0)]
  | _, _ => []

end

/-- The members of an Ethernet header that `fill` sets without an argument: place and
bytes. -/
def ownMember : String → Option (Nat × List UInt8)
  | "vlan_id" => some (12, leBytes 2 0x0081)
  | "inner_vlan_id" => some (16, leBytes 2 (bswap16 0x8100))
  | _ => none

def Modelled (proto : Proto) : Prop := proto = .ethernet ∨ proto = .ip4 ∨ proto = .udp ∨ proto = .tcp

instance (proto : Proto) : Decidable (Modelled proto) := inferInstanceAs (Decidable (_ ∨ _))

/-- The setters of the source, with any for the protocols that are not modelled. -/
def Setters.source (others : Setters) : Setters where
  arith := others.arith
  set h suffix v bytes :=
    if Modelled h.proto then ((headerSetters h.proto h.subType).lookup suffix).bind fun s => s.set v bytes
    else others.set h suffix v bytes
  own h member bytes :=
    if Modelled h.proto then
      match ownMember member with
      | some (place, value) => ((headerMemory bytes).store place value).slice 0 bytes.length
      | none => bytes
    else others.own h member bytes

/-- A member that holds a whole number, with its lowest byte first or last. -/
structure Member where
  offset : Nat
  width : Nat
  lowFirst : Bool

def Member.bytes (m : Member) (n : Nat) : List UInt8 :=
  if m.lowFirst then leBytes m.width n else (leBytes m.width n).reverse

/-- The bytes of a header have a number in a member. -/
def Member.Holds (m : Member) (n : Nat) (bytes : List UInt8) : Prop := (bytes.drop m.offset).take m.width = m.bytes n

/-- A setter stores numbers in a member. -/
def HeaderSetter.Stores (s : HeaderSetter) (m : Member) : Prop :=
  ∀ (n : Nat) (mem : Memory), n < 256 ^ m.width →
    s.run (some (.number n)) mem = some (mem.store m.offset (m.bytes n))

/-- Bytes from a place on are apart from a member. -/
def Member.Apart (m : Member) (offset width : Nat) : Prop := offset + width ≤ m.offset ∨ m.offset + m.width ≤ offset

instance (m : Member) (offset width : Nat) : Decidable (m.Apart offset width) := inferInstanceAs (Decidable (_ ∨ _))

@[simp] theorem length_memberBytes (m : Member) (n : Nat) : (m.bytes n).length = m.width := by
  rw [Member.bytes]
  split
  · exact length_leBytes m.width n
  · rw [List.length_reverse, length_leBytes]

theorem natural_natCast (n : Nat) : natural (some (.number n)) = some (some n) := by
  simp [natural, number]

theorem leBytes_bswap (k v : Nat) : leBytes k (Bytes.bswap k v) = (leBytes k v).reverse := by
  have length : (leBytes k v).reverse.length = k := by rw [List.length_reverse, length_leBytes]
  exact Bytes.leBytes_ofLe_of_length length

theorem leBytes_bswap16 {n : Nat} (small : n < 2 ^ 16) : leBytes 2 (bswap16 n) = (leBytes 2 n).reverse := by
  have high : UInt8.ofNat (bswap16 n) = .ofNat (n / 256) := by
    rw [bswap16_eq small, ← UInt8.toNat_inj, UInt8.toNat_ofNat', UInt8.toNat_ofNat']
    omega
  have low : UInt8.ofNat (bswap16 n / 2 ^ 8) = .ofNat n := by
    have byte : n / 2 ^ 8 < 2 ^ 8 := by omega
    rw [bswap16_eq small, ← UInt8.toNat_inj, UInt8.toNat_ofNat', UInt8.toNat_ofNat',
      Nat.add_mul_div_right _ _ (by decide), Nat.div_eq_of_lt byte, Nat.zero_add, Nat.mod_mod]
  exact congrArg₂ (fun x y => [x, y]) high low

theorem byte_stores (offset default : Nat) : (HeaderSetter.byte offset default).Stores ⟨offset, 1, false⟩ := by
  intro n mem _
  simp only [HeaderSetter.byte, HeaderSetter.storing, natural_natCast]
  rfl

theorem word_stores (offset default : Nat) : (HeaderSetter.word offset default).Stores ⟨offset, 2, false⟩ := by
  intro n mem small
  have wide : n < 2 ^ 32 := Nat.lt_trans small (show 256 ^ 2 < 2 ^ 32 by decide)
  have field : (hton16 (n : ℚ)).toNat = bswap16 n := by
    rw [hton16, tobit_natCast, BitVec.toNat_ofNat, BitVec.toNat_ofNat, Nat.mod_eq_of_lt wide,
      Nat.mod_eq_of_lt (bswap16_lt small)]
  have set : (HeaderSetter.word offset default).run (some (.number n)) mem =
      some (mem.store offset (leBytes 2 (hton16 (n : ℚ)).toNat)) := rfl
  rw [set, field, leBytes_bswap16 small]
  rfl

theorem longBytes_natCast {n : Nat} (small : n < 256 ^ 4) : longBytes (tobit (n : ℚ)) = (leBytes 4 n).reverse := by
  rw [longBytes, tobit_natCast, BitVec.toNat_ofNat, Nat.mod_eq_of_lt (show n < 2 ^ 32 from small), leBytes_bswap]

theorem long_stores (offset default : Nat) : (HeaderSetter.long offset default).Stores ⟨offset, 4, false⟩ := by
  intro n mem small
  have set : (HeaderSetter.long offset default).run (some (.number n)) mem =
      some (mem.store offset (longBytes (tobit (n : ℚ)))) := rfl
  rw [set, longBytes_natCast small]
  rfl

theorem ip4_stores (offset : Nat) : (HeaderSetter.ip4 offset).Stores ⟨offset, 4, false⟩ := by
  intro n mem small
  have set : (HeaderSetter.ip4 offset).run (some (.number n)) mem =
      some (mem.store offset (longBytes (tobit (n : ℚ)))) := rfl
  rw [set, longBytes_natCast small]
  rfl

theorem mac_stores (offset : Nat) : (HeaderSetter.mac offset).Stores ⟨offset, 6, true⟩ := by
  intro n mem _
  have arg : macArg (some (.number n)) = some (.number n) := by simp [macArg]
  simp only [HeaderSetter.mac, arg, Option.map_some, EtherHeader.setAddress, MacAddr.set, Option.getD_some]
  rw [MacAddr.setBytes_natCast]
  rfl

theorem vlan_stores : ∃ s, (headerSetters .ethernet (some .vlan)).lookup "Vlan" = some s ∧ s.Stores ⟨14, 2, false⟩ := by
  refine ⟨_, rfl, fun n mem small => ?_⟩
  have set : (natural (some (.number n))).map (fun int => EtherHeader.setVlanTag mem 0 (int.getD 1)) =
      some (mem.store 14 (leBytes 2 (bswap16 n))) := by
    rw [natural_natCast]
    rfl
  rw [leBytes_bswap16 small] at set
  exact set

theorem drop_slice (mem : Memory) (a k n : Nat) : (mem.slice a (k + n)).drop k = mem.slice (a + k) n := by
  induction k generalizing a with
  | zero => rw [Nat.zero_add, List.drop_zero, Nat.add_zero]
  | succ k ih => rw [Nat.add_right_comm, slice, List.drop_succ_cons, ih, Nat.add_right_comm, Nat.add_assoc]

theorem take_drop_slice (mem : Memory) {n off w : Nat} (inside : off + w ≤ n) :
    ((mem.slice 0 n).drop off).take w = mem.slice off w := by
  obtain ⟨rest, rfl⟩ := Nat.exists_eq_add_of_le (Nat.le_trans (Nat.le_add_right off w) inside)
  rw [drop_slice, Nat.zero_add, take_slice (by omega)]

theorem slice_headerMemory (bytes : List UInt8) : (headerMemory bytes).slice 0 bytes.length = bytes :=
  ofFile_holds [] bytes _

section
variable {m : Member} {bytes : List UInt8}

theorem holds_iff {n : Nat} (inside : m.offset + m.width ≤ bytes.length) :
    m.Holds n bytes ↔ (headerMemory bytes).slice m.offset m.width = m.bytes n := by
  rw [Member.Holds, ← take_drop_slice _ inside, slice_headerMemory]

/-- What changes other bytes keeps the number in a member. -/
theorem holds_slice {n : Nat} {mem : Memory} (inside : m.offset + m.width ≤ bytes.length) (holds : m.Holds n bytes)
    (same : ∀ b, m.offset ≤ b → b < m.offset + m.width → mem b = headerMemory bytes b) :
    m.Holds n (mem.slice 0 bytes.length) := by
  rw [Member.Holds, take_drop_slice mem inside, slice_congr same]
  exact (holds_iff inside).mp holds

theorem Member.Apart.outside {offset width b : Nat} (apart : m.Apart offset width) (after : m.offset ≤ b)
    (before : b < m.offset + m.width) : b < offset ∨ offset + width ≤ b := by
  rcases apart with below | above
  · exact .inr (by omega)
  · exact .inl (by omega)

theorem HeaderSetter.length_set {s : HeaderSetter} {v : Option Value} {bytes' : List UInt8}
    (set : s.set v bytes = some bytes') : bytes'.length = bytes.length := by
  obtain ⟨mem, -, rfl⟩ := Option.map_eq_some_iff.mp set
  exact length_slice mem 0 _

theorem HeaderSetter.set_of_apart {s : HeaderSetter} {v : Option Value} {bytes' : List UInt8} {n : Nat}
    (apart : m.Apart s.offset s.width) (inside : m.offset + m.width ≤ bytes.length) (set : s.set v bytes = some bytes')
    (holds : m.Holds n bytes) : m.Holds n bytes' := by
  obtain ⟨mem, run, rfl⟩ := Option.map_eq_some_iff.mp set
  exact holds_slice inside holds fun b after before => s.frame run b (apart.outside after before)

/-- A setter that stores a number leaves the members apart from it. -/
theorem HeaderSetter.Stores.set {s : HeaderSetter} (stores : s.Stores m) {n : Nat} (small : n < 256 ^ m.width)
    (inside : m.offset + m.width ≤ bytes.length) :
    ∃ bytes', s.set (some (.number n)) bytes = some bytes' ∧ bytes'.length = bytes.length ∧ m.Holds n bytes' ∧
      ∀ (m' : Member) (n' : Nat), m'.Apart m.offset m.width → m'.offset + m'.width ≤ bytes.length →
        m'.Holds n' bytes → m'.Holds n' bytes' := by
  have run := congrArg (Option.map (·.slice 0 bytes.length)) (stores n (headerMemory bytes) small)
  refine ⟨_, run, length_slice .., ?_, fun m' n' apart inside' holds => ?_⟩
  · have stored := store_holds (headerMemory bytes) m.offset (m.bytes n)
    rw [Memory.Holds, length_memberBytes] at stored
    rw [Member.Holds, take_drop_slice _ inside, stored]
  · refine holds_slice inside' holds fun b after before => store_of_outside _ ?_
    rw [length_memberBytes]
    exact apart.outside after before

end

end MoonGen.Packet.Named
