import MoonGen.Checksum.Words

namespace MoonGen

namespace Ip4Header

/-- `ip4Header:setChecksum`, whose argument is zero when it is left out. -/
def setChecksum (mem : Memory) (ip : Nat) (int : Option Nat) : Memory := setU16 mem (ip + 10) (bswap16 (int.getD 0))

/-- `ip4Header:calculateChecksum` on the header at an address. -/
def calculateChecksum (mem : Memory) (ip : Nat) : Memory :=
  let mem := setChecksum mem ip none
  setChecksum mem ip (some (bswap16 (checksum mem ip 20)))

/-- The length in units of 32 bits. -/
def getHeaderLength (mem : Memory) (ip : Nat) : Nat := (mem ip).toNat &&& 0x0F

/-- The number of bytes behind the fixed part of the header. -/
def getVariableLength (mem : Memory) (ip : Nat) : Nat := (getHeaderLength mem ip - 5) * 4

variable (mem : Memory) (ip : Nat)

theorem calculateChecksum_eq : calculateChecksum mem ip =
    setU16 (setU16 mem (ip + 10) 0) (ip + 10) (checksum (setU16 mem (ip + 10) 0) ip 20) := by
  have complement := checksum_eq (setU16 mem (ip + 10) 0) ip 20
  have blank : setChecksum mem ip none = setU16 mem (ip + 10) 0 := rfl
  rw [calculateChecksum, blank, setChecksum, Option.getD_some, bswap16_bswap16 (by omega)]

theorem calculateChecksum_of_ne {b : Nat} (first : b ≠ ip + 10) (second : b ≠ ip + 11) :
    calculateChecksum mem ip b = mem b := by
  rw [calculateChecksum_eq, setU16_of_ne _ _ _ first second, setU16_of_ne _ _ _ first second]

/-- The fixed part of the header sums up to nothing. -/
theorem fixed_modEq : (segment (calculateChecksum mem ip) ip 20).sum ≡ 0 [MOD 65535] := by
  have balance := segmentWords_checksum (setU16 mem (ip + 10) 0) ip (show 5 < 20 / 2 by decide)
  rw [Nat.mul_comm, word_setU16 _ _ _ (by decide), Nat.add_zero] at balance
  rw [calculateChecksum_eq]
  exact (segment_modEq _ ip 20).trans (balance.mul_left 256)

theorem header_eq (long : 5 ≤ getHeaderLength mem ip) :
    segment mem ip (4 * getHeaderLength mem ip) =
      segment mem ip 20 ++ segment mem (ip + 20) (getVariableLength mem ip) := by
  have split : 4 * getHeaderLength mem ip = 2 * 10 + getVariableLength mem ip := by
    unfold getVariableLength
    omega
  rw [split, segment_append]

theorem segment_congr {mem' : Memory} {a len : Nat} (same : ∀ b, a ≤ b → mem' b = mem b) :
    segment mem' a len = segment mem a len := by
  have row (i : Nat) : netWord mem' (a + 2 * i) = netWord mem (a + 2 * i) := by
    rw [netWord, netWord, same _ (by omega), same _ (by omega)]
  simp only [segment, row, same (a + 2 * (len / 2)) (by omega)]

/-- The length is part of the header, so that the header is not blank. -/
theorem header_sum_ne_zero (long : 5 ≤ getHeaderLength mem ip) :
    (segment mem ip (4 * getHeaderLength mem ip)).sum ≠ 0 := by
  have low : (mem ip).toNat ≠ 0 := by
    intro blank
    rw [getHeaderLength, blank] at long
    exact absurd long (by decide)
  have first : segment mem ip 20 = netWord mem ip :: segment mem (ip + 2) 18 := segment_append mem ip 1 18
  rw [header_eq mem ip long, first, List.cons_append, List.sum_cons, netWord]
  omega

end Ip4Header

open Ip4Header

/-- `checksum` is right for every length. The checksum of a header leaves out its options,
so that it is right only when these sum up to nothing. -/
theorem ip4_checksum_iff (mem : Memory) (ip : Nat) :
    (∀ len, checksum mem ip len = 0xFFFF - OnesComplement.sum (segmentWords mem ip len) ∧
      bswap16 (checksum mem ip len) = 0xFFFF - OnesComplement.sum (segment mem ip len)) ∧
    (5 ≤ getHeaderLength mem ip →
      ((OnesComplement.sum (segment (Ip4Header.calculateChecksum mem ip) ip (4 * getHeaderLength mem ip)) = 0xFFFF ∧
        ∀ a, a ≠ ip + 10 → a ≠ ip + 11 → Ip4Header.calculateChecksum mem ip a = mem a) ↔
      (segment mem (ip + 20) (getVariableLength mem ip)).sum ≡ 0 [MOD 0xFFFF])) := by
  refine ⟨checksum_spec mem ip, fun long => ?_⟩
  have kept (a : Nat) := calculateChecksum_of_ne mem ip (b := a)
  have sameLength : getHeaderLength (Ip4Header.calculateChecksum mem ip) ip = getHeaderLength mem ip := by
    rw [getHeaderLength, kept ip (by omega) (by omega), getHeaderLength]
  have options : segment (Ip4Header.calculateChecksum mem ip) (ip + 20) (getVariableLength mem ip) =
      segment mem (ip + 20) (getVariableLength mem ip) :=
    segment_congr mem fun b behind => kept b (by omega) (by omega)
  have fixed := fixed_modEq mem ip
  have header := header_eq (Ip4Header.calculateChecksum mem ip) ip (sameLength ▸ long)
  have nonzero := header_sum_ne_zero (Ip4Header.calculateChecksum mem ip) ip (sameLength ▸ long)
  rw [getVariableLength, sameLength, ← getVariableLength, options] at header
  rw [sameLength] at nonzero
  rw [and_iff_left kept, OnesComplement.sum_eq_ones_iff (segment_lt _ _ _), and_iff_left nonzero, header, List.sum_append,
    ← Nat.modEq_zero_iff_dvd]
  exact ⟨fun sum => fixed.add_left_cancel sum, fun rest => fixed.add rest⟩

/-- A header of six words whose option has one byte. -/
def optionHeader (option : UInt8) : Memory := fun a => if a = 0 then 0x46 else if a = 20 then option else 0

theorem ip4_checksum_iff_padded :
    OnesComplement.sum (segment (Ip4Header.calculateChecksum (optionHeader 0) 0) 0 24) = 0xFFFF :=
  (((ip4_checksum_iff (optionHeader 0) 0).2 (by decide)).mpr (by decide)).1

theorem ip4_checksum_options_wrong : getHeaderLength (optionHeader 1) 0 = 6 ∧
    OnesComplement.sum (segment (Ip4Header.calculateChecksum (optionHeader 1) 0) 0 24) ≠ 0xFFFF := by
  decide +kernel

end MoonGen
