import MoonGen.Checksum.Ip4
import MoonGen.Lib.BitField
import MoonGen.Lib.Bytes

namespace MoonGen

open Memory
open List

/-- `band(rshift(w, shift), mask)` -/
def getBits (shift : Nat) (mask : BitVec 32) (w : Nat) : Nat := ((BitVec.ofNat 32 w >>> shift) &&& mask).toNat

/-- `bor(band(old, keep), band(lshift(int, shift), mask))` -/
def setBits (shift : Nat) (mask keep : BitVec 32) (old int : Nat) : Nat :=
  ((BitVec.ofNat 32 old &&& keep) ||| ((BitVec.ofNat 32 int <<< shift) &&& mask)).toNat

section
variable (mem : Memory)

namespace Ip4Header
variable (ip : Nat)

def setVersion (int : Option Nat) : Memory :=
  mem.set ip (.ofNat (setBits 4 0xf0 0x0f (mem ip).toNat (int.getD 4)))

def getVersion : Nat := getBits 4 0x0f (mem ip).toNat

def setHeaderLength (int : Option Nat) : Memory :=
  mem.set ip (.ofNat (setBits 0 0x0f 0xf0 (mem ip).toNat (int.getD 5)))

def setFlags (int : Option Nat) : Memory :=
  setU16 mem (ip + 6) (bswap16 (setBits 13 0xe000 0x1fff (bswap16 (mem.word (ip + 6) 2)) (int.getD 0)))

def getFlags : Nat := getBits 13 0x0007 (bswap16 (mem.word (ip + 6) 2))

def setFragment (int : Option Nat) : Memory :=
  setU16 mem (ip + 6) (bswap16 (setBits 0 0x1fff 0xe000 (bswap16 (mem.word (ip + 6) 2)) (int.getD 0)))

def getFragment : Nat := getBits 0 0x1fff (bswap16 (mem.word (ip + 6) 2))

end Ip4Header

namespace Ip6Header
variable (ip : Nat)

/-- The member `vtf` in host byte order. -/
def vtf : Nat := Bytes.bswap 4 (mem.word ip 4)

def setVtf (v : Nat) : Memory := mem.store ip (leBytes 4 (Bytes.bswap 4 v))

def setVersion (int : Option Nat) : Memory :=
  setVtf mem ip (setBits 28 0xf0000000 0x0fffffff (vtf mem ip) (int.getD 6))

def getVersion : Nat := getBits 28 0x0000000f (vtf mem ip)

def setTrafficClass (int : Option Nat) : Memory :=
  setVtf mem ip (setBits 20 0x0ff00000 0xf00fffff (vtf mem ip) (int.getD 0))

def getTrafficClass : Nat := getBits 20 0x000000ff (vtf mem ip)

def setFlowLabel (int : Option Nat) : Memory :=
  setVtf mem ip (setBits 0 0x000fffff 0xfff00000 (vtf mem ip) (int.getD 0))

def getFlowLabel : Nat := getBits 0 0x000fffff (vtf mem ip)

end Ip6Header

namespace TcpHeader
variable (tcp : Nat)

def setDataOffset (int : Option Nat) : Memory :=
  mem.set (tcp + 12) (.ofNat (setBits 4 0xf0 0x0f (mem (tcp + 12)).toNat (int.getD 5)))

def getDataOffset : Nat := getBits 4 0x0f (mem (tcp + 12)).toNat

/-- `tcpHeader:setReserved`, with four bits in the member `offset` and two in `flags`. -/
def setReserved (int : Option Nat) : Memory :=
  let int := BitVec.ofNat 32 (int.getD 0)
  let off := (int >>> 2) &&& 0x0f
  let old := BitVec.ofNat 32 (mem (tcp + 12)).toNat &&& 0xf0
  let mem' := mem.set (tcp + 12) (.ofNat (old ||| off).toNat)
  let fla := int <<< 6
  let old := BitVec.ofNat 32 (mem' (tcp + 13)).toNat &&& 0x3f
  mem'.set (tcp + 13) (.ofNat (old ||| fla).toNat)

def getReserved : Nat :=
  let res := (BitVec.ofNat 32 (mem (tcp + 12)).toNat &&& 0x0f) <<< 2
  (res ||| (BitVec.ofNat 32 (mem (tcp + 13)).toNat >>> 6)).toNat

def setFlags (int : Option Nat) : Memory :=
  mem.set (tcp + 13) (.ofNat (setBits 0 0x3f 0xc0 (mem (tcp + 13)).toNat (int.getD 0)))

def getFlags : Nat := getBits 0 0x3f (mem (tcp + 13)).toNat

end TcpHeader

end

/-- The headers that have fields in one word. -/
inductive PackedHeader
  | ip4
  | ip6
  | tcp
deriving DecidableEq

/-- The words that fields share. -/
inductive PackedWord
  | verihl
  | frag
  | vtf
  | offsetFlags
deriving DecidableEq

/-- The fields that share a word. -/
inductive PackedField
  | ip4Version
  | ip4HeaderLength
  | ip4Flags
  | ip4Fragment
  | ip6Version
  | ip6TrafficClass
  | ip6FlowLabel
  | tcpDataOffset
  | tcpReserved
  | tcpFlags
deriving DecidableEq

namespace PackedWord

def header : PackedWord → PackedHeader
  | verihl | frag => .ip4
  | vtf => .ip6
  | offsetFlags => .tcp

/-- The word of the header at an address as a number. -/
def read (mem : Memory) (a : Nat) : PackedWord → Nat
  | verihl => (mem a).toNat
  | frag => bswap16 (mem.word (a + 6) 2)
  | vtf => Ip6Header.vtf mem a
  | offsetFlags => 2 ^ 8 * (mem (a + 12)).toNat + (mem (a + 13)).toNat

/-- The bytes of a word, where they are in the header and in the word. -/
def places : PackedWord → List (Nat × BitField)
  | verihl => [(0, ⟨0, 8⟩)]
  | frag => [(6, ⟨8, 8⟩), (7, ⟨0, 8⟩)]
  | vtf => [(0, ⟨24, 8⟩), (1, ⟨16, 8⟩), (2, ⟨8, 8⟩), (3, ⟨0, 8⟩)]
  | offsetFlags => [(12, ⟨8, 8⟩), (13, ⟨0, 8⟩)]

end PackedWord

namespace PackedField

def word : PackedField → PackedWord
  | ip4Version | ip4HeaderLength => .verihl
  | ip4Flags | ip4Fragment => .frag
  | ip6Version | ip6TrafficClass | ip6FlowLabel => .vtf
  | tcpDataOffset | tcpReserved | tcpFlags => .offsetFlags

def header (field : PackedField) : PackedHeader := field.word.header

/-- The bits of a field in its word. -/
def bits : PackedField → BitField
  | ip4Version => ⟨4, 4⟩
  | ip4HeaderLength => ⟨0, 4⟩
  | ip4Flags => ⟨13, 3⟩
  | ip4Fragment => ⟨0, 13⟩
  | ip6Version => ⟨28, 4⟩
  | ip6TrafficClass => ⟨20, 8⟩
  | ip6FlowLabel => ⟨0, 20⟩
  | tcpDataOffset => ⟨12, 4⟩
  | tcpReserved => ⟨6, 6⟩
  | tcpFlags => ⟨0, 6⟩

/-- The bytes of the header that have bits of a field. -/
def bytes : PackedField → List Nat
  | ip4Version | ip4HeaderLength => [0]
  | ip4Flags => [6]
  | ip4Fragment => [6, 7]
  | ip6Version => [0]
  | ip6TrafficClass => [0, 1]
  | ip6FlowLabel => [1, 2, 3]
  | tcpDataOffset => [12]
  | tcpReserved => [12, 13]
  | tcpFlags => [13]

/-- The value that is set when none is given. -/
def default : PackedField → Nat
  | ip4Version => 4
  | ip4HeaderLength => 5
  | ip6Version => 6
  | tcpDataOffset => 5
  | _ => 0

/-- The setter of a field, on the header at an address. -/
def set (mem : Memory) (a : Nat) (int : Option Nat) : PackedField → Memory
  | ip4Version => Ip4Header.setVersion mem a int
  | ip4HeaderLength => Ip4Header.setHeaderLength mem a int
  | ip4Flags => Ip4Header.setFlags mem a int
  | ip4Fragment => Ip4Header.setFragment mem a int
  | ip6Version => Ip6Header.setVersion mem a int
  | ip6TrafficClass => Ip6Header.setTrafficClass mem a int
  | ip6FlowLabel => Ip6Header.setFlowLabel mem a int
  | tcpDataOffset => TcpHeader.setDataOffset mem a int
  | tcpReserved => TcpHeader.setReserved mem a int
  | tcpFlags => TcpHeader.setFlags mem a int

def get (mem : Memory) (a : Nat) : PackedField → Nat
  | ip4Version => Ip4Header.getVersion mem a
  | ip4HeaderLength => Ip4Header.getHeaderLength mem a
  | ip4Flags => Ip4Header.getFlags mem a
  | ip4Fragment => Ip4Header.getFragment mem a
  | ip6Version => Ip6Header.getVersion mem a
  | ip6TrafficClass => Ip6Header.getTrafficClass mem a
  | ip6FlowLabel => Ip6Header.getFlowLabel mem a
  | tcpDataOffset => TcpHeader.getDataOffset mem a
  | tcpReserved => TcpHeader.getReserved mem a
  | tcpFlags => TcpHeader.getFlags mem a

end PackedField

/-- A call of a setter of a header with a value in range, or without a value. -/
structure FieldCall (header : PackedHeader) where
  field : PackedField
  int : Option Nat
  own : field.header = header
  fits : ∀ v ∈ int, v < 2 ^ field.bits.width

namespace FieldCall

variable {header : PackedHeader}

def value (call : FieldCall header) : Nat := call.int.getD call.field.default

def run (mem : Memory) (a : Nat) (calls : List (FieldCall header)) : Memory :=
  calls.foldl (fun mem call => call.field.set mem a call.int) mem

/-- The value that was set last, or the prior one. -/
def lastSet (field : PackedField) (prior : Nat) (calls : List (FieldCall header)) : Nat :=
  calls.foldl (fun v call => if call.field = field then call.value else v) prior

end FieldCall

theorem getBits_eq (f : BitField) {w : Nat} (word : w < 2 ^ 32) (narrow : f.width ≤ 32) {mask : BitVec 32}
    (bits : mask = .ofNat 32 (2 ^ f.width - 1)) : getBits f.low mask w = f.get w := by
  rw [getBits, f.toNat_and_shiftRight narrow bits, BitVec.toNat_ofNat, Nat.mod_eq_of_lt word]

theorem setBits_eq (f : BitField) {m old int : Nat} (narrow : m ≤ 32) (inside : f.low + f.width ≤ m)
    (word : old < 2 ^ m) {mask keep : BitVec 32} (bits : mask = .ofNat 32 f.mask)
    (others : keep = .ofNat 32 (f.mask ^^^ (2 ^ m - 1))) : setBits f.low mask keep old int = f.put old int := by
  have whole : (BitVec.ofNat 32 old).toNat = old :=
    Nat.mod_eq_of_lt (Nat.lt_of_lt_of_le word (Nat.pow_le_pow_right (by decide) narrow))
  rw [setBits, f.toNat_or_and inside narrow (whole.symm ▸ word) bits others, whole, BitVec.toNat_ofNat]
  exact f.put_congr (Nat.mod_mod_of_dvd _ (Nat.pow_dvd_pow 2 (by omega)))

namespace Ip6Header

theorem vtf_lt (mem : Memory) (ip : Nat) : vtf mem ip < 2 ^ 32 := Bytes.bswap_lt 4 _

theorem vtf_setVtf (mem : Memory) (ip : Nat) {v : Nat} (word : v < 2 ^ 32) : vtf (setVtf mem ip v) ip = v := by
  rw [vtf, setVtf, word_of_holds (store_holds mem ip _), Nat.mod_eq_of_lt (Bytes.bswap_lt 4 v), Bytes.bswap_bswap]
  exact Nat.mod_eq_of_lt word

end Ip6Header

section
variable (f : BitField) (mem : Memory) (a int : Nat) {mask keep : BitVec 32} (bits : mask = .ofNat 32 f.mask)
include bits

/-- A setter of a field in a byte. -/
theorem set_setBits (inside : f.low + f.width ≤ 8) (others : keep = .ofNat 32 (f.mask ^^^ (2 ^ 8 - 1))) :
    (mem.set a (.ofNat (setBits f.low mask keep (mem a).toNat int)) a).toNat = f.put (mem a).toNat int := by
  have byte : (mem a).toNat < 2 ^ 8 := (mem a).toNat_lt
  rw [set_self, setBits_eq f (by decide) inside byte bits others, UInt8.toNat_ofNat']
  exact Nat.mod_eq_of_lt (f.put_lt inside byte)

/-- A setter of a field in a word of 16 bits. -/
theorem bswap16_setBits (inside : f.low + f.width ≤ 16) (others : keep = .ofNat 32 (f.mask ^^^ (2 ^ 16 - 1))) :
    bswap16 ((setU16 mem a (bswap16 (setBits f.low mask keep (bswap16 (mem.word a 2)) int))).word a 2) =
      f.put (bswap16 (mem.word a 2)) int := by
  have word := bswap16_lt (word_two_lt mem a)
  have small := f.put_lt (v := int) inside word
  rw [setBits_eq f (by decide) inside word bits others, word_setU16 mem a _ (bswap16_lt small), bswap16_bswap16 small]

/-- A setter of a field in the first word of IPv6. -/
theorem vtf_setBits (inside : f.low + f.width ≤ 32) (others : keep = .ofNat 32 (f.mask ^^^ (2 ^ 32 - 1))) :
    Ip6Header.vtf (Ip6Header.setVtf mem a (setBits f.low mask keep (Ip6Header.vtf mem a) int)) a =
      f.put (Ip6Header.vtf mem a) int := by
  have word := Ip6Header.vtf_lt mem a
  rw [setBits_eq f (by decide) inside word bits others, Ip6Header.vtf_setVtf mem a (f.put_lt inside word)]

end

namespace TcpHeader

variable (mem : Memory) (tcp : Nat) (int : Option Nat)

theorem setReserved_offset :
    (setReserved mem tcp int (tcp + 12)).toNat = BitField.put ⟨0, 4⟩ (mem (tcp + 12)).toNat (int.getD 0 / 2 ^ 2) := by
  have next : tcp + 12 ≠ tcp + 13 := by omega
  have offset : (mem (tcp + 12)).toNat < 2 ^ 8 := (mem (tcp + 12)).toNat_lt
  have whole : (BitVec.ofNat 32 (mem (tcp + 12)).toNat).toNat = (mem (tcp + 12)).toNat :=
    Nat.mod_eq_of_lt (Nat.lt_trans offset (by decide))
  have stored := BitField.toNat_or_and ⟨0, 4⟩ (show 0 + 4 ≤ 8 by decide) (show 8 ≤ 32 by decide)
    (v := BitVec.ofNat 32 (int.getD 0) >>> 2) (whole.symm ▸ offset) rfl rfl
  have small := BitField.put_lt ⟨0, 4⟩ (v := int.getD 0 / 2 ^ 2) (show 0 + 4 ≤ 8 by decide) offset
  have value : (int.getD 0 % 2 ^ 32) / 2 ^ 2 % 2 ^ 4 = int.getD 0 / 2 ^ 2 % 2 ^ 4 := by omega
  rw [BitVec.shiftLeft_zero, whole, BitVec.toNat_ushiftRight, BitVec.toNat_ofNat, Nat.shiftRight_eq_div_pow,
    BitField.put_congr ⟨0, 4⟩ value] at stored
  rw [setReserved, set_of_ne _ next, set_self, UInt8.toNat_ofNat', ← Nat.mod_eq_of_lt small, ← stored]
  rfl

theorem setReserved_flags :
    (setReserved mem tcp int (tcp + 13)).toNat = BitField.put ⟨6, 2⟩ (mem (tcp + 13)).toNat (int.getD 0) := by
  have next : tcp + 13 ≠ tcp + 12 := by omega
  have flags : (mem (tcp + 13)).toNat < 2 ^ 8 := (mem (tcp + 13)).toNat_lt
  have whole : (BitVec.ofNat 32 (mem (tcp + 13)).toNat).toNat = (mem (tcp + 13)).toNat :=
    Nat.mod_eq_of_lt (Nat.lt_trans flags (by decide))
  have stored := BitField.toNat_or_shiftLeft ⟨6, 2⟩ (show 8 ≤ 32 by decide)
    (v := BitVec.ofNat 32 (int.getD 0)) (whole.symm ▸ flags) rfl rfl
  have value : int.getD 0 % 2 ^ 32 % 2 ^ 2 = int.getD 0 % 2 ^ 2 := by omega
  rw [whole, BitVec.toNat_ofNat, BitField.put_congr ⟨6, 2⟩ value] at stored
  rw [setReserved, set_self, UInt8.toNat_ofNat', set_of_ne _ next, ← stored]
  rfl

theorem getReserved_eq : getReserved mem tcp =
    BitField.get ⟨6, 6⟩ (2 ^ 8 * (mem (tcp + 12)).toNat + (mem (tcp + 13)).toNat) := by
  have offset : (mem (tcp + 12)).toNat < 2 ^ 8 := (mem (tcp + 12)).toNat_lt
  have flags : (mem (tcp + 13)).toNat < 2 ^ 8 := (mem (tcp + 13)).toNat_lt
  have low : (BitVec.ofNat 32 (mem (tcp + 12)).toNat &&& 0x0f).toNat = (mem (tcp + 12)).toNat % 2 ^ 4 := by
    rw [BitVec.toNat_and, BitVec.toNat_ofNat, Nat.mod_eq_of_lt (by omega)]
    exact Nat.and_two_pow_sub_one_eq_mod _ 4
  have first : ((BitVec.ofNat 32 (mem (tcp + 12)).toNat &&& 0x0f) <<< 2).toNat =
      2 ^ 2 * ((mem (tcp + 12)).toNat % 2 ^ 4) := by
    rw [BitVec.toNat_shiftLeft, low, Nat.shiftLeft_eq]
    omega
  have second : (BitVec.ofNat 32 (mem (tcp + 13)).toNat >>> 6).toNat = (mem (tcp + 13)).toNat / 2 ^ 6 := by
    rw [BitVec.toNat_ushiftRight, BitVec.toNat_ofNat, Nat.mod_eq_of_lt (by omega), Nat.shiftRight_eq_div_pow]
  rw [getReserved, BitVec.toNat_or, first, second, ← Nat.two_pow_add_eq_or_of_lt (by omega)]
  simp only [BitField.get]
  omega

end TcpHeader

namespace PackedWord

/-- A byte of a word is a field of it. -/
theorem get_read (word : PackedWord) (mem : Memory) (a : Nat) {place : Nat} {byte : BitField}
    (member : (place, byte) ∈ word.places) : byte.get (word.read mem a) = (mem (a + place)).toNat := by
  have bound (i : Nat) : (mem (a + i)).toNat < 256 := (mem (a + i)).toNat_lt
  cases word with
  | verihl =>
    obtain ⟨rfl, rfl⟩ : place = 0 ∧ byte = ⟨0, 8⟩ := by simpa [places] using member
    have first := bound 0
    simp only [BitField.get, read, Nat.add_zero] at *
    omega
  | frag =>
    have first := bound 6
    have second := bound 7
    have value : read mem a frag = 256 * (mem (a + 6)).toNat + (mem (a + 7)).toNat := (netWord_eq mem (a + 6)).symm
    simp only [places, mem_cons, Prod.mk.injEq, not_mem_nil, or_false] at member
    rw [value]
    rcases member with ⟨rfl, rfl⟩ | ⟨rfl, rfl⟩ <;> simp only [BitField.get] <;> omega
  | vtf =>
    have first := bound 0
    have second := bound 1
    have third := bound 2
    have fourth := bound 3
    have value : read mem a vtf = (mem (a + 3)).toNat + 256 * ((mem (a + 2)).toNat + 256 * ((mem (a + 1)).toNat +
        256 * (mem a).toNat)) := Bytes.bswap_word mem a 4
    simp only [places, mem_cons, Prod.mk.injEq, not_mem_nil, or_false] at member
    rw [value]
    rcases member with ⟨rfl, rfl⟩ | ⟨rfl, rfl⟩ | ⟨rfl, rfl⟩ | ⟨rfl, rfl⟩ <;>
      simp only [BitField.get, Nat.add_zero] at * <;> omega
  | offsetFlags =>
    have first := bound 12
    have second := bound 13
    simp only [places, mem_cons, Prod.mk.injEq, not_mem_nil, or_false] at member
    rw [read]
    rcases member with ⟨rfl, rfl⟩ | ⟨rfl, rfl⟩ <;> simp only [BitField.get] <;> omega

end PackedWord

namespace PackedField

theorem read_set (field : PackedField) (mem : Memory) (a : Nat) (int : Option Nat) :
    field.word.read (field.set mem a int) a = field.bits.put (field.word.read mem a) (int.getD field.default) := by
  have next : a + 12 ≠ a + 13 := by omega
  cases field with
  | ip4Version => exact set_setBits ⟨4, 4⟩ mem a _ rfl (by decide) rfl
  | ip4HeaderLength => exact set_setBits ⟨0, 4⟩ mem a _ rfl (by decide) rfl
  | ip4Flags => exact bswap16_setBits ⟨13, 3⟩ mem (a + 6) _ rfl (by decide) rfl
  | ip4Fragment => exact bswap16_setBits ⟨0, 13⟩ mem (a + 6) _ rfl (by decide) rfl
  | ip6Version => exact vtf_setBits ⟨28, 4⟩ mem a _ rfl (by decide) rfl
  | ip6TrafficClass => exact vtf_setBits ⟨20, 8⟩ mem a _ rfl (by decide) rfl
  | ip6FlowLabel => exact vtf_setBits ⟨0, 20⟩ mem a _ rfl (by decide) rfl
  | tcpDataOffset =>
    have high : (TcpHeader.setDataOffset mem a int (a + 12)).toNat = _ :=
      set_setBits ⟨4, 4⟩ mem (a + 12) (int.getD 5) rfl (by decide) rfl
    have low : TcpHeader.setDataOffset mem a int (a + 13) = _ := set_of_ne mem next.symm _
    rw [word, PackedWord.read, set, high, low]
    exact (BitField.put_high ⟨4, 4⟩ (g := ⟨12, 4⟩) rfl rfl _ (mem (a + 13)).toNat_lt).symm
  | tcpReserved =>
    rw [word, PackedWord.read, set, TcpHeader.setReserved_offset, TcpHeader.setReserved_flags]
    exact (BitField.put_both ⟨6, 6⟩ ⟨6, 2⟩ ⟨0, 4⟩ _ (mem (a + 13)).toNat_lt rfl rfl rfl rfl).symm
  | tcpFlags =>
    have low : (TcpHeader.setFlags mem a int (a + 13)).toNat = _ :=
      set_setBits ⟨0, 6⟩ mem (a + 13) (int.getD 0) rfl (by decide) rfl
    have high : TcpHeader.setFlags mem a int (a + 12) = _ := set_of_ne mem next _
    rw [word, PackedWord.read, set, high, low]
    exact (BitField.put_low ⟨0, 6⟩ (by decide) _ (mem (a + 13)).toNat_lt).symm

theorem get_eq (field : PackedField) (mem : Memory) (a : Nat) :
    field.get mem a = field.bits.get (field.word.read mem a) := by
  have byte (b : Nat) : (mem b).toNat < 2 ^ 32 := Nat.lt_trans (mem b).toNat_lt (by decide)
  have frag : bswap16 (mem.word (a + 6) 2) < 2 ^ 32 := Nat.lt_trans (bswap16_lt (word_two_lt mem (a + 6))) (by decide)
  cases field with
  | ip4Version => exact getBits_eq ⟨4, 4⟩ (byte a) (by decide) rfl
  | ip4HeaderLength =>
    have low : Ip4Header.getHeaderLength mem a = (mem a).toNat % 2 ^ 4 := Nat.and_two_pow_sub_one_eq_mod _ 4
    rw [get, low, word, PackedWord.read, bits, BitField.get, Nat.pow_zero, Nat.div_one]
  | ip4Flags => exact getBits_eq ⟨13, 3⟩ frag (by decide) rfl
  | ip4Fragment => exact getBits_eq ⟨0, 13⟩ frag (by decide) rfl
  | ip6Version => exact getBits_eq ⟨28, 4⟩ (Ip6Header.vtf_lt mem a) (by decide) rfl
  | ip6TrafficClass => exact getBits_eq ⟨20, 8⟩ (Ip6Header.vtf_lt mem a) (by decide) rfl
  | ip6FlowLabel => exact getBits_eq ⟨0, 20⟩ (Ip6Header.vtf_lt mem a) (by decide) rfl
  | tcpDataOffset =>
    have high : TcpHeader.getDataOffset mem a = _ := getBits_eq ⟨4, 4⟩ (byte (a + 12)) (by decide) rfl
    have flags := (mem (a + 13)).toNat_lt
    rw [get, high, word, PackedWord.read, bits]
    simp only [BitField.get]
    omega
  | tcpReserved => exact TcpHeader.getReserved_eq mem a
  | tcpFlags =>
    have low : TcpHeader.getFlags mem a = _ := getBits_eq ⟨0, 6⟩ (byte (a + 13)) (by decide) rfl
    rw [get, low, word, PackedWord.read, bits]
    simp only [BitField.get]
    omega

theorem bits_apart {f g : PackedField} (same : f.word = g.word) (other : f ≠ g) : f.bits.Apart g.bits := by
  cases f <;> cases g <;> first | exact absurd rfl other | decide | cases same

section
variable (field : PackedField)

/-- A setter leaves the other word of its header as it is. -/
theorem read_set_of_ne {w : PackedWord} (own : w.header = field.header) (other : w ≠ field.word)
    (mem : Memory) (a : Nat) (int : Option Nat) : w.read (field.set mem a int) a = w.read mem a := by
  have far : a ≠ a + 6 ∧ a ≠ a + 7 := by omega
  cases field <;> cases w <;> first | exact absurd rfl other | cases own
  case ip4Version.frag =>
    rw [PackedWord.read, PackedWord.read, word_two, word_two, set, Ip4Header.setVersion, set_of_ne _ far.1.symm,
      set_of_ne _ far.2.symm]
  case ip4HeaderLength.frag =>
    rw [PackedWord.read, PackedWord.read, word_two, word_two, set, Ip4Header.setHeaderLength, set_of_ne _ far.1.symm,
      set_of_ne _ far.2.symm]
  case ip4Flags.verihl => exact congrArg UInt8.toNat (setU16_of_ne _ _ _ far.1 far.2)
  case ip4Fragment.verihl => exact congrArg UInt8.toNat (setU16_of_ne _ _ _ far.1 far.2)

/-- A setter changes no byte outside of its word. -/
theorem set_of_outside (mem : Memory) {a b : Nat} (int : Option Nat)
    (outside : ∀ place ∈ field.word.places, b ≠ a + place.1) : field.set mem a int b = mem b := by
  cases field <;> simp only [word, PackedWord.places, forall_mem_cons, Nat.add_zero] at outside
  case ip4Version => exact set_of_ne mem outside.1 _
  case ip4HeaderLength => exact set_of_ne mem outside.1 _
  case ip4Flags => exact setU16_of_ne _ _ _ outside.1 outside.2.1
  case ip4Fragment => exact setU16_of_ne _ _ _ outside.1 outside.2.1
  case ip6Version => exact store_of_outside mem (by rw [length_leBytes]; omega)
  case ip6TrafficClass => exact store_of_outside mem (by rw [length_leBytes]; omega)
  case ip6FlowLabel => exact store_of_outside mem (by rw [length_leBytes]; omega)
  case tcpDataOffset => exact set_of_ne mem outside.1 _
  case tcpReserved => rw [set, TcpHeader.setReserved, set_of_ne _ outside.2.1, set_of_ne _ outside.1]
  case tcpFlags => exact set_of_ne mem outside.2.1 _

theorem apart_of_not_mem_bytes {place : Nat} {byte : BitField}
    (member : (place, byte) ∈ field.word.places) (outside : place ∉ field.bytes) : field.bits.Apart byte := by
  have all : ∀ entry ∈ field.word.places, entry.1 ∉ field.bytes → field.bits.Apart entry.2 := by
    cases field <;> decide
  exact all _ member outside

/-- A setter changes no byte without bits of its field. -/
theorem set_of_not_mem_bytes (mem : Memory) {a b : Nat} (int : Option Nat)
    (outside : ∀ place ∈ field.bytes, b ≠ a + place) : field.set mem a int b = mem b := by
  by_cases inside : ∃ entry ∈ field.word.places, b = a + entry.1
  · obtain ⟨⟨place, byte⟩, member, rfl⟩ := inside
    have apart := field.apart_of_not_mem_bytes member fun own => outside place own rfl
    rw [← UInt8.toNat_inj, ← field.word.get_read _ a member, ← field.word.get_read _ a member, read_set,
      field.bits.get_put_of_apart apart]
  · exact field.set_of_outside mem int fun entry member same => inside ⟨entry, member, same⟩

theorem default_lt : field.default < 2 ^ field.bits.width := by
  cases field <;> decide

theorem get_set (mem : Memory) (a : Nat) {int : Option Nat}
    (fits : ∀ v ∈ int, v < 2 ^ field.bits.width) : field.get (field.set mem a int) a = int.getD field.default := by
  have small : int.getD field.default < 2 ^ field.bits.width := by
    cases int with
    | none => exact field.default_lt
    | some v => exact fits v rfl
  rw [get_eq, read_set, BitField.get_put, Nat.mod_eq_of_lt small]
end

theorem get_set_of_ne {f g : PackedField} (own : g.header = f.header) (other : f ≠ g) (mem : Memory) (a : Nat)
    (int : Option Nat) : g.get (f.set mem a int) a = g.get mem a := by
  rw [get_eq, get_eq]
  by_cases same : f.word = g.word
  · rw [← same, read_set, BitField.get_put_of_apart _ (bits_apart same other)]
  · rw [f.read_set_of_ne own (Ne.symm same)]

end PackedField

namespace FieldCall

variable {header : PackedHeader}

theorem get_run {field : PackedField} (own : field.header = header) (mem : Memory) (a : Nat)
    (calls : List (FieldCall header)) : field.get (run mem a calls) a = lastSet field (field.get mem a) calls := by
  induction calls generalizing mem with
  | nil => rfl
  | cons call calls ih =>
    rw [run, foldl_cons, lastSet, foldl_cons]
    refine (ih _).trans ?_
    by_cases same : call.field = field
    · subst same
      rw [if_pos rfl, call.field.get_set mem a call.fits]
      rfl
    · rw [if_neg same, PackedField.get_set_of_ne (own.trans call.own.symm) same]
      rfl

theorem run_of_not_mem_bytes (mem : Memory) {a b : Nat} {calls : List (FieldCall header)}
    (outside : ∀ call ∈ calls, ∀ place ∈ call.field.bytes, b ≠ a + place) : run mem a calls b = mem b := by
  induction calls generalizing mem with
  | nil => rfl
  | cons call calls ih =>
    obtain ⟨first, later⟩ := forall_mem_cons.mp outside
    rw [run, foldl_cons]
    exact (ih _ later).trans (call.field.set_of_not_mem_bytes mem call.int first)

end FieldCall

/-- After any calls of setters each getter returns what was last set for its field, and
only bytes with bits of these fields have changed. -/
theorem packed_fields (header : PackedHeader) (mem : Memory) (a : Nat) (calls : List (FieldCall header)) :
    (∀ field : PackedField, field.header = header →
      field.get (FieldCall.run mem a calls) a = FieldCall.lastSet field (field.get mem a) calls) ∧
    ∀ b, (∀ call ∈ calls, ∀ place ∈ call.field.bytes, b ≠ a + place) → FieldCall.run mem a calls b = mem b :=
  ⟨fun _ own => FieldCall.get_run own mem a calls, fun _ outside => FieldCall.run_of_not_mem_bytes mem outside⟩

end MoonGen
