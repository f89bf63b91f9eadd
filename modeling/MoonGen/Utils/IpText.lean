import Mathlib.Data.Int.ModEq
import MoonGen.Ip6.Address
import MoonGen.Lib.LuaPattern

namespace MoonGen

open LuaPattern Bytes
open List

/-- A number in decimal digits. -/
def decimalText (n : Nat) : List Char := Nat.toDigits 10 n

/-- The number that decimal digits stand for. -/
def decimalNumber (s : List Char) : Nat := Nat.ofDigitChars 10 s 0

def ip4ToString (ip : Int) : List Char :=
  let bits := BitVec.ofInt 32 ip
  ['.'].intercalate [decimalText (bits >>> 24).toNat, decimalText ((bits >>> 16) &&& 0xFF).toNat,
    decimalText ((bits >>> 8) &&& 0xFF).toNat, decimalText (bits &&& 0xFF).toNat]

/-- `(%d+)%.(%d+)%.(%d+)%.(%d+)` -/
def ip4Pattern : List (Item Char) :=
  [.plus Char.isDigit, .one (only '.'), .plus Char.isDigit, .one (only '.'), .plus Char.isDigit, .one (only '.'),
    .plus Char.isDigit]

/-- Four numbers in one, with the sign that the bit operations give it. -/
def ip4Number (b1 b2 b3 b4 : Nat) : Int :=
  ([b2, b3, b4].foldl (fun (ip : BitVec 32) b => (ip <<< 8) ||| .ofNat 32 b) (.ofNat 32 b1)).toInt

def parseIP4Address (ip : List Char) : Option Int :=
  match find ip4Pattern ip with
  | some [b1, _, b2, _, b3, _, b4] =>
    if decimalNumber b1 ≤ 255 ∧ decimalNumber b2 ≤ 255 ∧ decimalNumber b3 ≤ 255 ∧ decimalNumber b4 ≤ 255 then
      some (ip4Number (decimalNumber b1) (decimalNumber b2) (decimalNumber b3) (decimalNumber b4))
    else none
  | _ => none

/-- `parseIP6Address`, with what `inet_pton` makes of a text. -/
def parseIP6Address (inetPton : List Char → Option Ip6Addr) (ip : List Char) : Option Ip6Addr :=
  (inetPton ip).map fun tmp => .ofUint32 (bswap 4 (tmp.uint32 3)) (bswap 4 (tmp.uint32 2)) (bswap 4 (tmp.uint32 1))
    (bswap 4 (tmp.uint32 0))

inductive IpAddress
  | ip4 (address : Int)
  | ip6 (address : Ip6Addr)

/-- The address, and whether it is one of IPv4. -/
def parseIPAddress (inetPton : List Char → Option Ip6Addr) (ip : List Char) : Option IpAddress × Bool :=
  match parseIP4Address ip with
  | none => ((parseIP6Address inetPton ip).map .ip6, false)
  | some address => (some (.ip4 address), true)

def Decimal (s : List Char) : Prop := s ≠ [] ∧ ∀ c ∈ s, c.isDigit = true

/-- Four decimal numbers. -/
structure Quad where
  texts : List (List Char)
  four : texts.length = 4
  decimal : ∀ s ∈ texts, Decimal s

namespace Quad

/-- The numbers separated by dots. -/
def text (quad : Quad) : List Char := ['.'].intercalate quad.texts

/-- No number is above 255. -/
def Octets (quad : Quad) : Prop := ∀ s ∈ quad.texts, decimalNumber s ≤ 255

/-- The first place in a text with four numbers separated by dots, of which the last one
has all its digits. -/
structure First (s before : List Char) (quad : Quad) (after : List Char) : Prop where
  whole : before ++ (quad.text ++ after) = s
  ends : ∀ c ∈ after.head?, c.isDigit = false
  first : ∀ before' behind, before' ++ behind = s → before'.length < before.length →
    ∀ quad : Quad, ¬ quad.text <+: behind

theorem exists_texts (quad : Quad) : ∃ a b c d, quad.texts = [a, b, c, d] := by
  match quad with
  | ⟨[a, b, c, d], _, _⟩ => exact ⟨a, b, c, d, rfl⟩

theorem text_eq {quad : Quad} {a b c d : List Char} (texts : quad.texts = [a, b, c, d]) :
    quad.text = a ++ '.' :: (b ++ '.' :: (c ++ '.' :: d)) := by
  rw [text, texts]
  simp [List.intercalate]

theorem run_text {quad : Quad} {a b c d after : List Char} (texts : quad.texts = [a, b, c, d])
    (ends : ∀ c ∈ after.head?, c.isDigit = false) :
    run (fun _ => true) ip4Pattern (quad.text ++ after) = some ([a, ['.'], b, ['.'], c, ['.'], d], after) := by
  have nonempty : quad.texts ≠ [] := by
    rw [texts]
    exact cons_ne_nil _ _
  have matched : run (fun _ => true) (separatedRuns Char.isDigit (only '.') quad.texts.length)
      (['.'].intercalate quad.texts ++ after) = some (between '.' quad.texts, after) :=
    run_separatedRuns rfl rfl nonempty quad.decimal ends rfl
  rw [quad.four, texts] at matched
  rw [text, texts]
  exact matched

/-- Digits that follow can be taken into the last number. -/
theorem exists_ends {quad : Quad} {s : List Char} (starts : quad.text <+: s) :
    ∃ (quad' : Quad) (after : List Char), s = quad'.text ++ after ∧ ∀ c ∈ after.head?, c.isDigit = false := by
  obtain ⟨rest, rfl⟩ := starts
  obtain ⟨a, b, c, d, texts⟩ := quad.exists_texts
  have decimal := quad.decimal
  simp only [texts, forall_mem_cons] at decimal
  obtain ⟨first, second, third, ⟨nonempty, digits⟩, -⟩ := decimal
  have longer : Decimal (d ++ rest.takeWhile Char.isDigit) := by
    refine ⟨append_ne_nil_of_left_ne_nil nonempty _, fun c member => ?_⟩
    rcases mem_append.mp member with old | new
    · exact digits c old
    · exact all_eq_true.mp all_takeWhile c new
  refine ⟨⟨[a, b, c, d ++ rest.takeWhile Char.isDigit], rfl, ?_⟩, rest.dropWhile Char.isDigit, ?_, ?_⟩
  · simpa only [forall_mem_cons] using ⟨first, second, third, longer, nofun⟩
  · rw [text_eq texts, text_eq rfl]
    simp only [append_assoc, cons_append, takeWhile_append_dropWhile]
  · intro c member
    have stops := head?_dropWhile_not Char.isDigit rest
    rw [Option.mem_def.mp member] at stops
    simpa using stops

theorem run_iff {s rest : List Char} {pieces : List (List Char)} :
    run (fun _ => true) ip4Pattern s = some (pieces, rest) ↔ ∃ (quad : Quad) (a b c d : List Char),
      quad.texts = [a, b, c, d] ∧ s = quad.text ++ rest ∧ (∀ c ∈ rest.head?, c.isDigit = false) ∧
      pieces = [a, ['.'], b, ['.'], c, ['.'], d] := by
  constructor
  · intro found
    obtain ⟨whole, fits, -⟩ := run_sound found
    have starts : ∃ quad : Quad, quad.text <+: s := by
      match pieces, fits with
      | [a, p, b, q, c, r, d], .cons first (.cons dot (.cons second (.cons dot' (.cons third (.cons dot''
          (.cons fourth .nil)))))) =>
        obtain ⟨x, is, rfl⟩ := dot
        obtain ⟨y, is', rfl⟩ := dot'
        obtain ⟨z, is'', rfl⟩ := dot''
        obtain rfl : x = '.' := of_decide_eq_true is
        obtain rfl : y = '.' := of_decide_eq_true is'
        obtain rfl : z = '.' := of_decide_eq_true is''
        refine ⟨⟨[a, b, c, d], rfl, ?_⟩, rest, ?_⟩
        · simpa only [forall_mem_cons] using ⟨first, second, third, fourth, nofun⟩
        · rw [text_eq rfl, ← whole]
          simp
    obtain ⟨quad, starts⟩ := starts
    obtain ⟨quad', after, rfl, ends⟩ := exists_ends starts
    obtain ⟨a, b, c, d, texts⟩ := quad'.exists_texts
    rw [run_text texts ends] at found
    obtain ⟨rfl, rfl⟩ := Prod.mk.inj (Option.some.inj found)
    exact ⟨quad', a, b, c, d, texts, rfl, ends, rfl⟩
  · rintro ⟨quad, a, b, c, d, texts, rfl, ends, rfl⟩
    exact run_text texts ends

theorem run_eq_none_iff {s : List Char} :
    run (fun _ => true) ip4Pattern s = none ↔ ∀ quad : Quad, ¬ quad.text <+: s := by
  constructor
  · intro fails quad starts
    obtain ⟨quad', after, rfl, ends⟩ := exists_ends starts
    obtain ⟨a, b, c, d, texts⟩ := quad'.exists_texts
    rw [run_text texts ends] at fails
    cases fails
  · intro absent
    cases found : run (fun _ => true) ip4Pattern s with
    | none => rfl
    | some result =>
      obtain ⟨quad, _, _, _, _, -, rfl, -⟩ := run_iff.mp found
      exact absurd (prefix_append _ _) (absent quad)

/-- The search finds the first four numbers. -/
theorem find_iff {s : List Char} {pieces : List (List Char)} :
    find ip4Pattern s = some pieces ↔ ∃ (before : List Char) (quad : Quad) (after a b c d : List Char),
      First s before quad after ∧ quad.texts = [a, b, c, d] ∧ pieces = [a, ['.'], b, ['.'], c, ['.'], d] := by
  simp only [find_eq_some_iff, run_iff, run_eq_none_iff]
  constructor
  · rintro ⟨before, behind, rest, whole, ⟨quad, a, b, c, d, texts, rfl, ends, rfl⟩, first⟩
    exact ⟨before, quad, rest, a, b, c, d, ⟨whole, ends, first⟩, texts, rfl⟩
  · rintro ⟨before, quad, after, a, b, c, d, ⟨whole, ends, first⟩, texts, rfl⟩
    exact ⟨before, quad.text ++ after, after, whole, ⟨quad, a, b, c, d, texts, rfl, ends, rfl⟩, first⟩

/-- A text that is made up of four numbers has nothing around them. -/
theorem First.alone {s before after : List Char} {quad : Quad} (found : First s before quad after) (quad' : Quad)
    (whole : s = quad'.text) : before = [] ∧ after = [] := by
  have front : before = [] := by
    cases before with
    | nil => rfl
    | cons b before =>
      exact absurd (whole ▸ prefix_rfl) (found.first [] s rfl (Nat.succ_pos _) quad')
  subst front
  refine ⟨rfl, ?_⟩
  obtain ⟨a, b, c, d, texts⟩ := quad.exists_texts
  obtain ⟨a', b', c', d', texts'⟩ := quad'.exists_texts
  have here := run_text texts found.ends
  have there : run _ ip4Pattern (quad'.text ++ []) = _ := run_text texts' nofun
  have same : quad.text ++ after = quad'.text ++ [] := by
    rw [append_nil, ← whole, ← found.whole, nil_append]
  rw [same, there] at here
  exact (Prod.mk.inj (Option.some.inj here)).2.symm

theorem first_text (quad : Quad) : First quad.text [] quad [] :=
  ⟨by rw [nil_append, append_nil], nofun, fun _ _ _ shorter => absurd shorter (Nat.not_lt_zero _)⟩

end Quad

theorem parseIP4Address_isSome_iff {s : List Char} : (parseIP4Address s).isSome ↔
    ∃ (before : List Char) (quad : Quad) (after : List Char), Quad.First s before quad after ∧ quad.Octets := by
  constructor
  · intro parsed
    unfold parseIP4Address at parsed
    split at parsed
    · rename_i found
      obtain ⟨before, quad, after, a, b, c, d, first, texts, same⟩ := Quad.find_iff.mp found
      obtain ⟨rfl, -, rfl, -, rfl, -, rfl, -⟩ : _ := by simpa only [List.cons.injEq] using same
      split at parsed
      · rename_i small
        refine ⟨before, quad, after, first, ?_⟩
        rw [Quad.Octets, texts]
        simpa only [forall_mem_cons] using ⟨small.1, small.2.1, small.2.2.1, small.2.2.2, nofun⟩
      · cases parsed
    · cases parsed
  · rintro ⟨before, quad, after, first, octets⟩
    obtain ⟨a, b, c, d, texts⟩ := quad.exists_texts
    rw [Quad.Octets, texts] at octets
    simp only [forall_mem_cons] at octets
    rw [parseIP4Address, Quad.find_iff.mpr ⟨before, quad, after, a, b, c, d, first, texts, rfl⟩]
    dsimp only
    rw [if_pos ⟨octets.1, octets.2.1, octets.2.2.1, octets.2.2.2.1⟩]
    rfl

theorem toNat_shift_or (x : BitVec 32) {b : Nat} (byte : b < 256) :
    ((x <<< 8) ||| BitVec.ofNat 32 b).toNat = (x.toNat * 256 + b) % 2 ^ 32 := by
  have small : b < 2 ^ 8 := byte
  rw [BitVec.toNat_or, BitVec.toNat_shiftLeft, BitVec.toNat_ofNat, Nat.mod_eq_of_lt (a := b) (by omega)]
  have shifted : x.toNat <<< 8 % 2 ^ 32 = (x.toNat % 2 ^ 24) <<< 8 := by
    rw [Nat.shiftLeft_eq, Nat.shiftLeft_eq]
    omega
  rw [shifted, ← Nat.shiftLeft_add_eq_or_of_lt small, Nat.shiftLeft_eq]
  omega

theorem ip4Number_bytes (bits : BitVec 32) :
    ip4Number (bits >>> 24).toNat ((bits >>> 16) &&& 0xFF).toNat ((bits >>> 8) &&& 0xFF).toNat
      (bits &&& 0xFF).toNat = bits.toInt := by
  have low (x : BitVec 32) : (x &&& 0xFF).toNat = x.toNat % 256 := by
    rw [BitVec.toNat_and]
    exact Nat.and_two_pow_sub_one_eq_mod x.toNat 8
  have range := bits.isLt
  rw [ip4Number]
  congr 1
  refine BitVec.eq_of_toNat_eq ?_
  simp only [foldl_cons, foldl_nil]
  simp only [low, BitVec.toNat_ushiftRight, Nat.shiftRight_eq_div_pow]
  rw [toNat_shift_or _ (Nat.mod_lt _ (by decide)), toNat_shift_or _ (Nat.mod_lt _ (by decide)),
    toNat_shift_or _ (Nat.mod_lt _ (by decide)), BitVec.toNat_ofNat]
  omega

theorem parseIP4Address_ip4ToString (ip : Int) :
    parseIP4Address (ip4ToString ip) = some (BitVec.ofInt 32 ip).toInt := by
  generalize bits : BitVec.ofInt 32 ip = x
  have byte (y : BitVec 32) : (y &&& 0xFF).toNat ≤ 255 := Nat.and_le_right
  have high : (x >>> 24).toNat ≤ 255 := by
    have range := x.isLt
    rw [BitVec.toNat_ushiftRight, Nat.shiftRight_eq_div_pow]
    omega
  have decimal (n : Nat) : Decimal (decimalText n) :=
    ⟨Nat.toDigits_ne_nil, fun c member => Nat.isDigit_of_mem_toDigits (by decide) (by decide) member⟩
  have number (n : Nat) : decimalNumber (decimalText n) = n := Nat.ofDigitChars_toDigits (by decide) (by decide)
  let quad : Quad := ⟨[decimalText (x >>> 24).toNat, decimalText ((x >>> 16) &&& 0xFF).toNat,
    decimalText ((x >>> 8) &&& 0xFF).toNat, decimalText (x &&& 0xFF).toNat], rfl, by
      simp only [forall_mem_cons, decimal, true_and]
      exact nofun⟩
  have text : ip4ToString ip = quad.text := by
    rw [ip4ToString, bits]
    rfl
  have found := Quad.find_iff.mpr ⟨[], quad, [], _, _, _, _, quad.first_text, rfl, rfl⟩
  rw [text, parseIP4Address, found]
  simp only [number, byte, high, and_self, if_true, ip4Number_bytes]

/-- The text of an address is read back. A text is an address of IPv4 for the parser
already when it has one in it, and so are the texts of IPv6 that have. -/
theorem address_text_iff (inetPton : List Char → Option Ip6Addr) (s : List Char) :
    (∀ x : Int, -2 ^ 31 ≤ x → x < 2 ^ 32 → ∃ n, parseIP4Address (ip4ToString x) = some n ∧ n ≡ x [ZMOD 2 ^ 32]) ∧
    (((parseIP4Address s).isSome ↔ ∃ quad : Quad, s = quad.text ∧ quad.Octets) ↔
      ∀ before quad after, Quad.First s before quad after → quad.Octets → before = [] ∧ after = []) ∧
    ∀ tmp, inetPton s = some tmp →
      ((∃ address, parseIPAddress inetPton s = (some (.ip6 address), false) ∧ address.host = tmp.network) ↔
        ∀ before quad after, Quad.First s before quad after → ¬ quad.Octets) := by
  refine ⟨fun x _ _ => ⟨_, parseIP4Address_ip4ToString x, ?_⟩, ?_, fun tmp accepted => ?_⟩
  · rw [BitVec.toInt_ofInt]
    exact Int.bmod_emod
  · rw [parseIP4Address_isSome_iff]
    constructor
    · intro exactly before quad after found octets
      obtain ⟨quad', whole, -⟩ := exactly.mp ⟨before, quad, after, found, octets⟩
      exact found.alone quad' whole
    · intro alone
      constructor
      · rintro ⟨before, quad, after, found, octets⟩
        obtain ⟨rfl, rfl⟩ := alone before quad after found octets
        refine ⟨quad, ?_, octets⟩
        rw [← found.whole, nil_append, append_nil]
      · rintro ⟨quad, rfl, octets⟩
        exact ⟨[], quad, [], quad.first_text, octets⟩
  · have six : (∃ address, parseIPAddress inetPton s = (some (.ip6 address), false) ∧ address.host = tmp.network) ↔
        ¬ (parseIP4Address s).isSome := by
      rw [parseIPAddress]
      cases parseIP4Address s with
      | none =>
        refine iff_of_true ⟨tmp.get, ?_, tmp.network_eq.symm⟩ nofun
        rw [parseIP6Address, accepted]
        rfl
      | some address =>
        refine iff_of_false ?_ fun not => not rfl
        rintro ⟨_, same, -⟩
        cases (Prod.mk.inj same).2
    rw [six, parseIP4Address_isSome_iff]
    exact ⟨fun never before quad after found octets => never ⟨before, quad, after, found, octets⟩,
      fun never ⟨before, quad, after, found, octets⟩ => never before quad after found octets⟩

/-- Five numbers are an address of IPv4, and so is an address of IPv6 with an embedded one,
whatever `inet_pton` would make of it. -/
theorem address_text_embedded : parseIP4Address "1.2.3.4.5".toList = some 0x01020304 ∧
    parseIP4Address "::1.2.3.4".toList = some 0x01020304 ∧
    ∀ inetPton, parseIPAddress inetPton "::1.2.3.4".toList = (some (.ip4 0x01020304), true) := by
  have first : parseIP4Address "1.2.3.4.5".toList = some 0x01020304 := by decide +kernel
  have second : parseIP4Address "::1.2.3.4".toList = some 0x01020304 := by decide +kernel
  refine ⟨first, second, fun inetPton => ?_⟩
  rw [parseIPAddress, second]

end MoonGen
