import MoonGen.Lib.Memory
import MoonGen.Lib.OnesComplement

namespace MoonGen

open List

/-- `bswap16`, which is also `hton16` and `ntoh16`, on the 32 bits of a bit operation. -/
def bswap16 (n : Nat) : Nat :=
  let x := BitVec.ofNat 32 n
  ((x >>> 8) ||| ((x &&& 0xFF) <<< 8)).toNat

/-- The store of a `uint16_t`. -/
def setU16 (mem : Memory) (a v : Nat) : Memory := (mem.set a (.ofNat v)).set (a + 1) (.ofNat (v / 256))

/-- The carry of a sum in Lua's `checksum`. -/
def foldCarry (cs : Nat) : Nat := if cs ≥ 2 ^ 16 then cs % 2 ^ 16 + 1 else cs

/-- `checksum`, with the last byte of an odd length in the low byte of its word. -/
def checksum (mem : Memory) (data len : Nat) : Nat :=
  let cs := (List.range (len / 2)).foldl (fun cs i => foldCarry (cs + mem.word (data + 2 * i) 2)) 0
  let cs := if len % 2 = 1 then foldCarry (cs + mem.word (data + 2 * (len / 2)) 2 % 2 ^ 8) else cs
  (2 ^ 32 - 1 - cs) % 2 ^ 16

/-- The 16-bit words from an address on. -/
def words (mem : Memory) (a n : Nat) : List Nat := (List.range n).map fun i => mem.word (a + 2 * i) 2

/-- A word in network byte order. -/
def netWord (mem : Memory) (a : Nat) : Nat := 256 * (mem a).toNat + (mem (a + 1)).toNat

/-- The words of a segment in network byte order, with a zero byte behind an odd
length. -/
def segment (mem : Memory) (a len : Nat) : List Nat :=
  (List.range (len / 2)).map (fun i => netWord mem (a + 2 * i)) ++
    if len % 2 = 1 then [256 * (mem (a + 2 * (len / 2))).toNat] else []

section
variable (mem : Memory) (a v : Nat)

theorem setU16_of_ne {b : Nat} (first : b ≠ a) (second : b ≠ a + 1) : setU16 mem a v b = mem b := by
  rw [setU16, Memory.set_of_ne _ second, Memory.set_of_ne _ first]

theorem word_two : mem.word a 2 = (mem a).toNat + 256 * (mem (a + 1)).toNat := by
  simp only [Memory.word]
  omega

theorem word_two_lt : mem.word a 2 < 2 ^ 16 := by
  have low := (mem a).toNat_lt
  have high := (mem (a + 1)).toNat_lt
  rw [word_two]
  omega

theorem word_setU16 (small : v < 2 ^ 16) : (setU16 mem a v).word a 2 = v := by
  rw [word_two, setU16, Memory.set_self, Memory.set_of_ne _ (Nat.ne_of_lt (Nat.lt_succ_self a)), Memory.set_self,
    UInt8.toNat_ofNat', UInt8.toNat_ofNat']
  omega

theorem word_setU16_of_far {b : Nat} (far : b + 1 < a ∨ a + 1 < b) : (setU16 mem a v).word b 2 = mem.word b 2 := by
  rw [word_two, word_two, setU16_of_ne _ _ _ (by omega) (by omega), setU16_of_ne _ _ _ (by omega) (by omega)]

/-- The store of a word that is there already. -/
theorem setU16_word : setU16 mem a (mem.word a 2) = mem := by
  have low := (mem a).toNat_lt
  have high := (mem (a + 1)).toNat_lt
  have first : UInt8.ofNat (mem.word a 2) = mem a := by
    rw [← UInt8.toNat_inj, UInt8.toNat_ofNat', word_two]
    omega
  have second : UInt8.ofNat (mem.word a 2 / 256) = mem (a + 1) := by
    rw [← UInt8.toNat_inj, UInt8.toNat_ofNat', word_two]
    omega
  funext b
  rw [setU16, first, second, Memory.set, Memory.set]
  split
  · rename_i same
    rw [same]
  · split
    · rename_i same
      rw [same]
    · rfl

/-- A store that changes nothing finds its word there already. -/
theorem word_eq_of_kept (small : v < 2 ^ 16) (first : setU16 mem a v a = mem a)
    (second : setU16 mem a v (a + 1) = mem (a + 1)) : mem.word a 2 = v := by
  have stored := word_setU16 mem a v small
  rwa [word_two, first, second, ← word_two] at stored

/-- The words of a row in network byte order add up to 256 times as much. -/
theorem netWord_modEq : netWord mem a ≡ 256 * mem.word a 2 [MOD 65535] := by
  rw [word_two]
  exact OnesComplement.swap_modEq ..

end

/-- A word has its two bytes exchanged. -/
theorem bswap16_eq {n : Nat} (word : n < 2 ^ 16) : bswap16 n = n / 2 ^ 8 + n % 2 ^ 8 * 2 ^ 8 := by
  have whole : (BitVec.ofNat 32 n).toNat = n := Nat.mod_eq_of_lt (by omega)
  have high : (BitVec.ofNat 32 n >>> 8).toNat = n / 2 ^ 8 := by
    rw [BitVec.toNat_ushiftRight, whole, Nat.shiftRight_eq_div_pow]
  have low : ((BitVec.ofNat 32 n &&& 0xFF) <<< 8).toNat = 2 ^ 8 * (n % 2 ^ 8) := by
    have byte : (BitVec.ofNat 32 n &&& 0xFF).toNat = n % 2 ^ 8 := by
      rw [BitVec.toNat_and, whole]
      exact Nat.and_two_pow_sub_one_eq_mod n 8
    rw [BitVec.toNat_shiftLeft, byte, Nat.shiftLeft_eq]
    omega
  rw [bswap16, BitVec.toNat_or, high, low, Nat.or_comm, ← Nat.two_pow_add_eq_or_of_lt (by omega)]
  omega

theorem bswap16_lt {n : Nat} (small : n < 2 ^ 16) : bswap16 n < 2 ^ 16 := by
  rw [bswap16_eq small]
  omega

theorem bswap16_bswap16 {n : Nat} (small : n < 2 ^ 16) : bswap16 (bswap16 n) = n := by
  rw [bswap16_eq (bswap16_lt small), bswap16_eq small]
  omega

/-- The words that the Lua loop adds up. -/
def segmentWords (mem : Memory) (a len : Nat) : List Nat :=
  words mem a (len / 2) ++ if len % 2 = 1 then [(mem (a + 2 * (len / 2))).toNat] else []

/-- A row of words that may end with a word for a single byte. -/
theorem padded_lt {f : Nat → Nat} {n len last : Nat} (each : ∀ i, f i < 2 ^ 16) (byte : last < 2 ^ 16) :
    ∀ w ∈ (List.range n).map f ++ if len % 2 = 1 then [last] else [], w < 2 ^ 16 := by
  refine forall_mem_append.mpr ⟨forall_mem_map.mpr fun i _ => each i, ?_⟩
  split
  · exact forall_mem_singleton.mpr byte
  · exact forall_mem_nil _

theorem segmentWords_lt (mem : Memory) (a len : Nat) : ∀ w ∈ segmentWords mem a len, w < 2 ^ 16 := by
  have byte := (mem (a + 2 * (len / 2))).toNat_lt
  exact padded_lt (fun i => word_two_lt mem (a + 2 * i)) (by omega)

theorem foldCarry_eq (a b : Nat) (left : a < 2 ^ 16) (right : b < 2 ^ 16) :
    foldCarry (a + b) = OnesComplement.add a b := by
  unfold foldCarry OnesComplement.add
  split <;> split <;> omega

/-- `checksum` is the complement of the sum of the words. -/
theorem checksum_eq (mem : Memory) (a len : Nat) :
    checksum mem a len + OnesComplement.sum (segmentWords mem a len) = 65535 := by
  have small := segmentWords_lt mem a len
  have bound := OnesComplement.sum_lt small
  have total : (segmentWords mem a len).foldl (fun cs w => foldCarry (cs + w)) 0 =
      OnesComplement.sum (segmentWords mem a len) := OnesComplement.foldl_eq foldCarry_eq (by decide) small
  have byte : mem.word (a + 2 * (len / 2)) 2 % 2 ^ 8 = (mem (a + 2 * (len / 2))).toNat := by
    have low := (mem (a + 2 * (len / 2))).toNat_lt
    rw [word_two]
    omega
  rw [← total] at bound ⊢
  simp only [checksum, byte]
  rw [segmentWords, foldl_append, words, foldl_map] at bound ⊢
  split
  · rename_i odd
    rw [if_pos odd, foldl_cons, foldl_nil] at bound
    rw [foldl_cons, foldl_nil]
    omega
  · rename_i even
    rw [if_neg even, foldl_nil] at bound
    rw [foldl_nil]
    omega

theorem word_four (mem : Memory) (a : Nat) : mem.word a 4 = mem.word a 2 + 2 ^ 16 * mem.word (a + 2) 2 := by
  simp only [Memory.word, Nat.add_assoc, Nat.reduceAdd]
  omega

theorem word_four_lt (mem : Memory) (a : Nat) : mem.word a 4 < 2 ^ 32 := by
  have first := word_two_lt mem a
  have second := word_two_lt mem (a + 2)
  rw [word_four]
  omega

theorem bswap16_inj {m n : Nat} (left : m < 2 ^ 16) (right : n < 2 ^ 16) (same : bswap16 m = bswap16 n) : m = n := by
  rw [← bswap16_bswap16 left, same, bswap16_bswap16 right]

theorem bswap16_eq_zero_iff {n : Nat} (small : n < 2 ^ 16) : bswap16 n = 0 ↔ n = 0 := by
  rw [bswap16_eq small]
  omega

theorem bswap16_modEq {n : Nat} (small : n < 2 ^ 16) : 256 * bswap16 n ≡ n [MOD 65535] := by
  rw [bswap16_eq small, Nat.ModEq]
  omega

theorem netWord_eq (mem : Memory) (a : Nat) : netWord mem a = bswap16 (mem.word a 2) := by
  have low := (mem a).toNat_lt
  have high := (mem (a + 1)).toNat_lt
  rw [bswap16_eq (word_two_lt mem a), word_two, netWord]
  omega

/-- A double word counts as its two words in network byte order. -/
theorem word_four_modEq (mem : Memory) (a : Nat) :
    256 * mem.word a 4 ≡ netWord mem a + netWord mem (a + 2) [MOD 65535] := by
  have first := netWord_modEq mem a
  have second := netWord_modEq mem (a + 2)
  rw [word_four]
  simp only [Nat.ModEq] at *
  omega

section
variable (mem : Memory) (a : Nat) {len : Nat}

/-- The words of a segment before and behind the store of one of them. -/
theorem sum_segmentWords_setU16 {k v : Nat} (within : k < len / 2) (small : v < 2 ^ 16) :
    (segmentWords (setU16 mem (a + 2 * k) v) a len).sum + mem.word (a + 2 * k) 2 =
      (segmentWords mem a len).sum + v := by
  have replaced := OnesComplement.sum_map_range_add (f := fun i => (setU16 mem (a + 2 * k) v).word (a + 2 * i) 2)
    (g := fun i => mem.word (a + 2 * i) 2) within
    fun i other => word_setU16_of_far _ _ _ (by omega)
  have last : setU16 mem (a + 2 * k) v (a + 2 * (len / 2)) = mem (a + 2 * (len / 2)) :=
    setU16_of_ne _ _ _ (by omega) (by omega)
  rw [word_setU16 _ _ _ small] at replaced
  simp only [segmentWords, words, sum_append, last]
  omega

/-- Behind the store of the checksum the segment makes up for what the field held. -/
theorem segmentWords_checksum {k : Nat} (within : k < len / 2) :
    (segmentWords (setU16 mem (a + 2 * k) (checksum mem a len)) a len).sum + mem.word (a + 2 * k) 2 ≡ 0
      [MOD 65535] := by
  have complement := checksum_eq mem a len
  have stored := sum_segmentWords_setU16 mem a within (show checksum mem a len < 2 ^ 16 by omega)
  have total := OnesComplement.sum_modEq (segmentWords mem a len)
  simp only [Nat.ModEq] at *
  omega

theorem segment_modEq (len : Nat) : (segment mem a len).sum ≡ 256 * (segmentWords mem a len).sum [MOD 65535] := by
  have row := OnesComplement.sum_map_modEq 256 (fun i => netWord_modEq mem (a + 2 * i)) (List.range (len / 2))
  simp only [segment, segmentWords, words, sum_append, Nat.mul_add]
  refine row.add ?_
  split
  · rw [sum_singleton, sum_singleton]
  · rfl

theorem netWord_lt : netWord mem a < 2 ^ 16 := by
  rw [netWord_eq]
  exact bswap16_lt (word_two_lt mem a)

theorem segment_lt (len : Nat) : ∀ w ∈ segment mem a len, w < 2 ^ 16 := by
  have byte := (mem (a + 2 * (len / 2))).toNat_lt
  exact padded_lt (fun i => netWord_lt mem (a + 2 * i)) (by omega)

theorem segment_append (k len : Nat) :
    segment mem a (2 * k + len) = segment mem a (2 * k) ++ segment mem (a + 2 * k) len := by
  have whole : (2 * k + len) / 2 = k + len / 2 := by omega
  have even : segment mem a (2 * k) = (List.range k).map fun i => netWord mem (a + 2 * i) := by
    rw [segment, Nat.mul_div_cancel_left k (by decide), Nat.mul_mod_right, if_neg (by decide), append_nil]
  rw [even, segment, segment, whole, Nat.mul_add_mod, range_add, map_append, map_map, append_assoc]
  simp only [Function.comp_def, Nat.mul_add, ← Nat.add_assoc]

/-- A receiver accepts a segment when the pseudo header and its words cancel out. -/
theorem accepted_iff {pseudo : List Nat} {p : Nat} (small : ∀ w ∈ pseudo, w < 2 ^ 16) (nonzero : pseudo.sum ≠ 0)
    (value : 256 * p ≡ pseudo.sum [MOD 65535]) (len : Nat) :
    OnesComplement.sum (pseudo ++ segment mem a len) = 65535 ↔
      p + (segmentWords mem a len).sum ≡ 0 [MOD 65535] := by
  have swapped := segment_modEq mem a len
  rw [OnesComplement.sum_eq_ones_iff (forall_mem_append.mpr ⟨small, segment_lt mem a len⟩), sum_append]
  simp only [Nat.ModEq] at *
  omega

/-- A word that stands for the sum with the bytes of each word swapped. -/
theorem bswap16_eq_sum {p : Nat} {ws : List Nat} (word : p < 2 ^ 16) (small : ∀ w ∈ ws, w < 2 ^ 16)
    (value : 256 * p ≡ ws.sum [MOD 65535]) (zero : p = 0 ↔ ws.sum = 0) : bswap16 p = OnesComplement.sum ws := by
  have bound := OnesComplement.sum_lt small
  have swapped := bswap16_lt word
  have total := OnesComplement.sum_modEq ws
  have shifted := bswap16_modEq word
  have vanishes : OnesComplement.sum ws = 0 ↔ ws.sum = 0 := OnesComplement.sum_eq_zero_iff
  have same := bswap16_eq_zero_iff word
  -- zero is split off, since the remainder by 65535 does not tell it from all ones
  simp only [Nat.ModEq] at *
  omega

theorem netWord_eq_zero_iff : netWord mem a = 0 ↔ mem.word a 2 = 0 := by
  rw [netWord, word_two]
  omega

theorem segment_sum_eq_zero_iff (len : Nat) : (segment mem a len).sum = 0 ↔ (segmentWords mem a len).sum = 0 := by
  have row := OnesComplement.sum_map_eq_zero_iff (fun i => netWord_eq_zero_iff mem (a + 2 * i)) (List.range (len / 2))
  rw [segment, segmentWords, words, sum_append, sum_append, Nat.add_eq_zero_iff, Nat.add_eq_zero_iff, row]
  refine and_congr_right fun _ => ?_
  split
  · rw [sum_singleton, sum_singleton]
    omega
  · rfl

theorem word_four_eq_zero_iff : mem.word a 4 = 0 ↔ netWord mem a + netWord mem (a + 2) = 0 := by
  have first := netWord_eq_zero_iff mem a
  have second := netWord_eq_zero_iff mem (a + 2)
  rw [word_four]
  omega

/-- Byte order does not matter for the sum of a row of words. -/
theorem bswap16_sum_segmentWords (len : Nat) :
    bswap16 (OnesComplement.sum (segmentWords mem a len)) = OnesComplement.sum (segment mem a len) := by
  have small := segmentWords_lt mem a len
  have swapped := segment_modEq mem a len
  have total := OnesComplement.sum_modEq (segmentWords mem a len)
  refine bswap16_eq_sum (OnesComplement.sum_lt small) (segment_lt mem a len)
    ((total.mul_left 256).trans swapped.symm) ?_
  rw [OnesComplement.sum_eq_zero_iff]
  exact (segment_sum_eq_zero_iff mem a len).symm

/-- `checksum` is the complement of the sum, in either byte order. -/
theorem checksum_spec (len : Nat) :
    checksum mem a len = 0xFFFF - OnesComplement.sum (segmentWords mem a len) ∧
      bswap16 (checksum mem a len) = 0xFFFF - OnesComplement.sum (segment mem a len) := by
  have complement := checksum_eq mem a len
  refine ⟨by omega, ?_⟩
  have sum : OnesComplement.sum (segmentWords mem a len) < 2 ^ 16 := by omega
  rw [← bswap16_sum_segmentWords, bswap16_eq sum, bswap16_eq (by omega)]
  omega

end

end MoonGen
