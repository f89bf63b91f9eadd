import MoonGen.Lib.Bytes
import MoonGen.Lib.LuaPattern

namespace MoonGen

open LuaPattern Memory Bytes
open List

/-- The class `%x`. -/
def isHexDigit (c : Char) : Bool := c.isDigit || ('a' ≤ c && c ≤ 'f') || ('A' ≤ c && c ≤ 'F')

def hexValue (c : Char) : Nat := if c.isDigit then c.toNat - '0'.toNat else c.toLower.toNat - 'a'.toNat + 10

/-- `tonumber(s, 16)` -/
def hexNumber (s : List Char) : Nat := s.foldl (fun n c => 16 * n + hexValue c) 0

/-- `%02x` -/
def hexText (b : UInt8) : List Char := [Nat.digitChar (b.toNat / 16), Nat.digitChar (b.toNat % 16)]

/-- The class `[-:]`. -/
def macSeparator (c : Char) : Bool := c = '-' || c = ':'

/-- `(%x+)[-:](%x+)[-:](%x+)[-:](%x+)[-:](%x+)[-:](%x+)` -/
def macPattern : List (Item Char) :=
  [.plus isHexDigit, .one macSeparator, .plus isHexDigit, .one macSeparator, .plus isHexDigit, .one macSeparator,
    .plus isHexDigit, .one macSeparator, .plus isHexDigit, .one macSeparator, .plus isHexDigit]

/-- The six bytes that `parseMacAddress` finds. -/
def parseMacAddress (mac : List Char) : Option (List Nat) :=
  match find macPattern mac with
  | some [b1, _, b2, _, b3, _, b4, _, b5, _, b6] =>
    let bytes := [b1, b2, b3, b4, b5, b6].map hexNumber
    if ∀ b ∈ bytes, b ≤ 0xFF then some bytes else none
  | _ => none

/-- The bytes as a number. -/
def macNumber (bytes : List Nat) : Nat := (List.range 6).foldl (fun acc i => acc + bytes.getD i 0 * 256 ^ i) 0

namespace MacAddr

/-- The bytes that `macAddr:set` stores, the last two by shifts of 64 bits. -/
def setBytes (addr : Int) : List UInt8 :=
  let low := BitVec.ofInt 32 addr
  let wide := BitVec.ofInt 64 addr
  [.ofNat (low &&& 0xFF).toNat, .ofNat ((low >>> 8) &&& 0xFF).toNat, .ofNat ((low >>> 16) &&& 0xFF).toNat,
    .ofNat ((low >>> 24) &&& 0xFF).toNat, .ofNat ((wide >>> 32) &&& 0xFF).toNat, .ofNat ((wide >>> 40) &&& 0xFF).toNat]

/-- `macAddr:set` on the address at `a`. -/
def set (mem : Memory) (a : Nat) (addr : Option Int) : Memory := mem.store a (setBytes (addr.getD 0))

def setString (mem : Memory) (a : Nat) (mac : List Char) : Memory :=
  set mem a ((parseMacAddress mac).map fun bytes => (macNumber bytes : Int))

def getString (mem : Memory) (a : Nat) : List Char := [':'].intercalate ((mem.slice a 6).map hexText)

end MacAddr

/-- An address of six bytes. -/
structure MacAddress where
  bytes : List UInt8
  size : bytes.length = 6
deriving DecidableEq

/-- The address as a text in lower case. -/
def MacAddress.text (mac : MacAddress) : List Char := [':'].intercalate (mac.bytes.map hexText)

theorem hexDigit_digitChar {n : Nat} (small : n < 16) :
    isHexDigit (Nat.digitChar n) = true ∧ hexValue (Nat.digitChar n) = n := by
  have all : ∀ n : Fin 16, isHexDigit (Nat.digitChar n) = true ∧ hexValue (Nat.digitChar n) = n := by decide
  exact all ⟨n, small⟩

theorem isHexDigit_hexText (b : UInt8) : hexText b ≠ [] ∧ ∀ c ∈ hexText b, isHexDigit c = true := by
  have byte := b.toNat_lt
  refine ⟨cons_ne_nil _ _, ?_⟩
  rw [hexText, forall_mem_cons, forall_mem_cons]
  exact ⟨(hexDigit_digitChar (by omega)).1, (hexDigit_digitChar (by omega)).1, nofun⟩

theorem hexNumber_hexText (b : UInt8) : hexNumber (hexText b) = b.toNat := by
  have byte := b.toNat_lt
  simp only [hexNumber, hexText, foldl_cons, foldl_nil]
  rw [(hexDigit_digitChar (by omega)).2, (hexDigit_digitChar (by omega)).2]
  omega

namespace MacAddress

variable (mac : MacAddress)

theorem exists_bytes : ∃ b1 b2 b3 b4 b5 b6, mac.bytes = [b1, b2, b3, b4, b5, b6] := by
  match mac with
  | ⟨[b1, b2, b3, b4, b5, b6], _⟩ => exact ⟨b1, b2, b3, b4, b5, b6, rfl⟩

theorem parse_text : parseMacAddress mac.text = some (mac.bytes.map UInt8.toNat) := by
  obtain ⟨b1, b2, b3, b4, b5, b6, bytes⟩ := mac.exists_bytes
  have nonempty : mac.bytes.map hexText ≠ [] := by
    rw [bytes]
    exact cons_ne_nil _ _
  have each : ∀ x ∈ mac.bytes.map hexText, x ≠ [] ∧ ∀ c ∈ x, isHexDigit c = true := by
    rw [forall_mem_map]
    exact fun b _ => isHexDigit_hexText b
  have matched : run (fun _ => true) (separatedRuns isHexDigit macSeparator (mac.bytes.map hexText).length)
      ([':'].intercalate (mac.bytes.map hexText) ++ []) = some (between ':' (mac.bytes.map hexText), []) :=
    run_separatedRuns rfl rfl nonempty each nofun rfl
  rw [append_nil, length_map, mac.size, bytes] at matched
  have found : find macPattern mac.text = some (between ':' ([b1, b2, b3, b4, b5, b6].map hexText)) := by
    rw [text, bytes]
    exact find_of_run matched
  have small (b : UInt8) : b.toNat ≤ 0xFF := Nat.le_of_lt_succ b.toNat_lt
  rw [parseMacAddress, found, bytes]
  simp only [map_cons, map_nil, between, hexNumber_hexText]
  rw [if_pos (by simp only [forall_mem_cons, small, true_and]; exact nofun)]

end MacAddress

theorem foldl_eq_ofDigits (base : Nat) (xs : List Nat) {k : Nat} (short : k ≤ xs.length) :
    (List.range k).foldl (fun acc i => acc + xs.getD i 0 * base ^ i) 0 = Nat.ofDigits base (xs.take k) := by
  induction k with
  | zero => rfl
  | succ k ih =>
    have inside : k < xs.length := short
    rw [range_succ, foldl_append, ih (Nat.le_of_lt inside), take_succ_eq_append_getElem inside,
      Nat.ofDigits_append, Nat.ofDigits_singleton, length_take_of_le (Nat.le_of_lt inside), Nat.mul_comm]
    simp only [foldl_cons, foldl_nil, getD_eq_getElem?_getD, getElem?_eq_getElem inside, Option.getD_some]

theorem MacAddress.macNumber_bytes (mac : MacAddress) : macNumber (mac.bytes.map UInt8.toNat) = ofLe mac.bytes := by
  have length : (mac.bytes.map UInt8.toNat).length = 6 := by rw [length_map, mac.size]
  rw [macNumber, foldl_eq_ofDigits 256 _ length.ge, take_of_length_le length.le, ofLe]

theorem ofNat_and_byte {w : Nat} (x : BitVec w) (wide : 8 ≤ w) : UInt8.ofNat (x &&& 0xFF).toNat = .ofNat x.toNat := by
  have mask : (0xFF : BitVec w).toNat = 2 ^ 8 - 1 := by
    have small : 2 ^ 8 ≤ 2 ^ w := Nat.pow_le_pow_right (by decide) wide
    exact Nat.mod_eq_of_lt (Nat.lt_of_lt_of_le (by decide) small)
  rw [BitVec.toNat_and, mask, Nat.and_two_pow_sub_one_eq_mod, ← UInt8.toNat_inj, UInt8.toNat_ofNat',
    UInt8.toNat_ofNat']
  exact Nat.mod_mod _ _

namespace MacAddr

/-- All 48 bits of a number are stored. -/
theorem setBytes_natCast (n : Nat) : setBytes (n : Int) = leBytes 6 n := by
  have byte {w k : Nat} (fits : k + 8 ≤ w) :
      UInt8.ofNat ((BitVec.ofInt w (n : Int) >>> k) &&& 0xFF).toNat = .ofNat (n / 2 ^ k) := by
    rw [ofNat_and_byte _ (by omega), BitVec.ofInt_natCast, BitVec.toNat_ushiftRight, BitVec.toNat_ofNat,
      Nat.shiftRight_eq_div_pow, ← UInt8.toNat_inj, UInt8.toNat_ofNat', UInt8.toNat_ofNat']
    have split : 2 ^ w = 2 ^ k * 2 ^ 8 * 2 ^ (w - (k + 8)) := by
      rw [← Nat.pow_add, ← Nat.pow_add, Nat.add_sub_cancel' fits]
    rw [split, Nat.mul_assoc, Nat.mod_mul_right_div_self, Nat.mod_mul_right_mod]
  have first : UInt8.ofNat (BitVec.ofInt 32 (n : Int) &&& 0xFF).toNat = .ofNat n := by
    have whole := byte (show 0 + 8 ≤ 32 by decide)
    rwa [BitVec.ushiftRight_zero, Nat.pow_zero, Nat.div_one] at whole
  simp only [setBytes, leBytes]
  rw [first, byte (by decide), byte (by decide), byte (by decide), byte (by decide), byte (by decide)]
  simp only [Nat.div_div_eq_div_mul]
  rfl

theorem setString_text (mem : Memory) (a : Nat) (mac : MacAddress) :
    setString mem a mac.text = mem.store a mac.bytes := by
  rw [setString, mac.parse_text, Option.map_some, mac.macNumber_bytes, set, Option.getD_some, setBytes_natCast,
    leBytes_ofLe_of_length mac.size]

theorem getString_of_holds {mem : Memory} {a : Nat} {mac : MacAddress} (holds : mem.Holds a mac.bytes) :
    getString mem a = mac.text := by
  rw [Holds, mac.size] at holds
  rw [getString, holds, MacAddress.text]

end MacAddr

end MoonGen
