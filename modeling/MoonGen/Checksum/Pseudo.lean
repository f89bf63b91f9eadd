import MoonGen.Checksum.Words

namespace MoonGen

open List Nat

/-- The length behind the IPv4 header in network byte order. -/
def ipv4PayloadLen (len : Nat) : Nat :=
  if len % 2 ^ 8 ≠ 0 then bswap16 ((bswap16 len + 2 ^ 16 - 20) % 2 ^ 16)
  else (len / 2 ^ 8 + 2 ^ 64 - 20) % 2 ^ 64 * 2 ^ 8 % 2 ^ 16

/-- The sum of two unsigned numbers below `M` with the carry that the source infers
from a wrapped sum. -/
def addCarry (M lower upper : Nat) : Nat :=
  if (lower + upper) % M < upper then (lower + upper) % M + 1 else (lower + upper) % M

/-- `get_ipv4_psd_sum`, for a protocol number below 128. -/
def getIpv4PsdSum (mem : Memory) (ip : Nat) : Nat :=
  let len := ipv4PayloadLen (mem.word (ip + 2) 2)
  let sum := mem.word (ip + 12) 4 + mem.word (ip + 16) 4 + ((mem (ip + 9)).toNat <<< 24 ||| len)
  let lower := addCarry (2 ^ 32) (sum % 2 ^ 32) (sum / 2 ^ 32)
  addCarry (2 ^ 16) (lower % 2 ^ 16) (lower / 2 ^ 16)

/-- `get_16b_sum` over words and the last byte of an odd number, which is zero where there is
none. -/
def get16bSum (words : List Nat) (last : Nat) : Nat :=
  let sum := words.foldl (fun sum w => if sum + w > 65535 then sum + w - 65535 else sum + w) 0 + last
  (sum / 2 ^ 16 + sum % 2 ^ 16) % 2 ^ 16

/-- `get_16b_sum` over the bytes from an address on. -/
def get16bSumAt (mem : Memory) (ptr nr : Nat) : Nat :=
  get16bSum (words mem ptr (nr / 2)) (if nr % 2 = 1 then (mem (ptr + 2 * (nr / 2))).toNat else 0)

/-- The words of `union ipv6_psd_header`. -/
def ipv6PsdHeader (mem : Memory) (ip : Nat) : List Nat :=
  words mem (ip + 8) 16 ++ [mem.word (ip + 4) 2, 0] ++ [0, (mem (ip + 6)).toNat * 2 ^ 8]

def getIpv6PsdSum (mem : Memory) (ip : Nat) : Nat := get16bSum (ipv6PsdHeader mem ip) 0

/-- The pseudo header over IPv4 in network byte order: addresses, protocol and the length
behind a header of 20 bytes. -/
def ipv4PseudoHeader (mem : Memory) (ip : Nat) : List Nat :=
  (List.range 4).map (fun i => netWord mem (ip + 12 + 2 * i)) ++ [(mem (ip + 9)).toNat, netWord mem (ip + 2) - 20]

/-- The pseudo header over IPv6 in network byte order: addresses, and payload length and
next header in 32 bits each. -/
def ipv6PseudoHeader (mem : Memory) (ip : Nat) : List Nat :=
  (List.range 16).map (fun i => netWord mem (ip + 8 + 2 * i)) ++ [0, netWord mem (ip + 4)] ++
    [0, (mem (ip + 6)).toNat]

theorem get16bSum_eq {ws : List Nat} (small : ∀ w ∈ ws, w < 2 ^ 16) {last : Nat} (byte : last < 2 ^ 8) :
    get16bSum ws last = OnesComplement.add (OnesComplement.sum ws) last := by
  have bound := OnesComplement.sum_lt small
  have total : ws.foldl (fun sum w => if sum + w > 65535 then sum + w - 65535 else sum + w) 0 =
      OnesComplement.sum ws := by
    refine OnesComplement.foldl_eq (fun a b left right => ?_) (by decide) small
    unfold OnesComplement.add
    split <;> split <;> omega
  simp only [get16bSum, total]
  unfold OnesComplement.add
  split <;> omega

theorem addCarry_eq {M l u : Nat} (lower : l < M) (upper : u < M) :
    addCarry M l u = if l + u < M then l + u else l + u - (M - 1) := by
  unfold addCarry
  by_cases fits : l + u < M
  · rw [mod_eq_of_lt fits, if_pos fits, if_neg (by omega)]
  · rw [mod_eq_sub_mod (by omega), mod_eq_of_lt (by omega), if_neg fits, if_pos (by omega)]
    omega

/-- A number folded into its low digit keeps its remainder, and is zero only if it was. -/
theorem addCarry_fold {M s : Nat} (small : s / M < M) : addCarry M (s % M) (s / M) < M ∧
    addCarry M (s % M) (s / M) ≡ s [MOD M - 1] ∧ (addCarry M (s % M) (s / M) = 0 ↔ s = 0) := by
  have lower : s % M < M := mod_lt s (zero_lt_of_lt small)
  have whole : s % M + s / M + (M - 1) * (s / M) = s := by
    rw [Nat.add_assoc, Nat.add_comm (s / M), ← succ_mul, succ_eq_add_one,
      Nat.sub_add_cancel (zero_lt_of_lt small), mod_add_div]
  have digits : s % M + s / M ≡ s [MOD M - 1] := by
    conv_rhs => rw [← whole]
    exact (add_mul_mod_self_left _ _ _).symm
  have zero : s % M + s / M = 0 ↔ s = 0 := by
    refine ⟨fun nothing => ?_, fun nothing => by rw [nothing, zero_mod, Nat.zero_div]⟩
    rw [nothing, Nat.zero_add, (Nat.add_eq_zero_iff.mp nothing).2, Nat.mul_zero] at whole
    exact whole.symm
  rw [addCarry_eq lower small]
  split
  · exact ⟨by assumption, digits, zero⟩
  · have carried : s % M + s / M - (M - 1) + (M - 1) = s % M + s / M := by omega
    refine ⟨by omega, ?_, by omega⟩
    rw [← carried] at digits
    exact (add_mod_right _ _).symm.trans digits

/-- The two folds of a sum of three words of 32 bits keep it. -/
theorem fold_modEq (sum : Nat) (small : sum < 2 ^ 34) : let lower := addCarry (2 ^ 32) (sum % 2 ^ 32) (sum / 2 ^ 32)
    addCarry (2 ^ 16) (lower % 2 ^ 16) (lower / 2 ^ 16) < 2 ^ 16 ∧
      addCarry (2 ^ 16) (lower % 2 ^ 16) (lower / 2 ^ 16) ≡ sum [MOD 65535] ∧
      (addCarry (2 ^ 16) (lower % 2 ^ 16) (lower / 2 ^ 16) = 0 ↔ sum = 0) := by
  intro lower
  obtain ⟨word, first, zero⟩ := addCarry_fold (M := 2 ^ 32) (s := sum) (by omega)
  have short : lower / 2 ^ 16 < 2 ^ 16 := Nat.div_lt_of_lt_mul word
  obtain ⟨bound, second, zero'⟩ := addCarry_fold short
  exact ⟨bound, second.trans (first.of_dvd (by decide)), zero'.trans zero⟩

theorem bswap16_of_byte {n : Nat} (byte : n < 2 ^ 8) : bswap16 n = n * 2 ^ 8 := by
  rw [bswap16_eq (by omega), div_eq_of_lt byte, mod_eq_of_lt byte, Nat.zero_add]

/-- Both branches take the header off the total length. -/
theorem ipv4PayloadLen_eq {total : Nat} (header : 20 ≤ total) (small : total < 2 ^ 16) :
    ipv4PayloadLen (bswap16 total) = bswap16 (total - 20) := by
  unfold ipv4PayloadLen
  split
  · have rest : (total + 2 ^ 16 - 20) % 2 ^ 16 = total - 20 := by omega
    rw [bswap16_bswap16 small, rest]
  · rename_i short
    have byte : total < 2 ^ 8 := by
      rw [bswap16_eq small] at short
      omega
    have rest : (total + 2 ^ 64 - 20) % 2 ^ 64 = total - 20 := by omega
    rw [bswap16_of_byte byte, Nat.mul_div_cancel _ (by decide), rest, bswap16_of_byte (by omega)]
    exact mod_eq_of_lt (by omega)

theorem ipv6PsdHeader_lt (mem : Memory) (ip : Nat) : ∀ w ∈ ipv6PsdHeader mem ip, w < 2 ^ 16 := by
  have length := word_two_lt mem (ip + 4)
  have proto := (mem (ip + 6)).toNat_lt
  intro w member
  simp only [ipv6PsdHeader, words, mem_append, mem_map, mem_cons, not_mem_nil, or_false] at member
  rcases member with (⟨i, _, rfl⟩ | rfl | rfl) | rfl | rfl
  · exact word_two_lt ..
  all_goals omega

section
variable (mem : Memory) (ip : Nat)

theorem ipv4PseudoHeader_lt : ∀ w ∈ ipv4PseudoHeader mem ip, w < 2 ^ 16 := by
  have total := netWord_lt mem (ip + 2)
  have proto := (mem (ip + 9)).toNat_lt
  intro w member
  simp only [ipv4PseudoHeader, mem_append, mem_map, mem_cons, not_mem_nil, or_false] at member
  rcases member with ⟨i, _, rfl⟩ | rfl | rfl
  · exact netWord_lt ..
  all_goals omega

theorem ipv6PseudoHeader_lt : ∀ w ∈ ipv6PseudoHeader mem ip, w < 2 ^ 16 := by
  have payload := netWord_lt mem (ip + 4)
  have next := (mem (ip + 6)).toNat_lt
  intro w member
  simp only [ipv6PseudoHeader, mem_append, mem_map, mem_cons, not_mem_nil, or_false] at member
  rcases member with (⟨i, _, rfl⟩ | rfl | rfl) | rfl | rfl
  · exact netWord_lt ..
  all_goals omega

theorem ipv4PayloadLen_word {mem : Memory} {ip : Nat} (header : 20 ≤ netWord mem (ip + 2)) :
    ipv4PayloadLen (mem.word (ip + 2) 2) = bswap16 (netWord mem (ip + 2) - 20) := by
  have raw := word_two_lt mem (ip + 2)
  have total := netWord_lt mem (ip + 2)
  rw [netWord_eq] at header total ⊢
  rw [← ipv4PayloadLen_eq header total, bswap16_bswap16 raw]

theorem getIpv4PsdSum_spec {mem : Memory} {ip : Nat} (header : 20 ≤ netWord mem (ip + 2)) :
    getIpv4PsdSum mem ip < 2 ^ 16 ∧ 256 * getIpv4PsdSum mem ip ≡ (ipv4PseudoHeader mem ip).sum [MOD 65535] ∧
      (getIpv4PsdSum mem ip = 0 ↔ (ipv4PseudoHeader mem ip).sum = 0) := by
  have total := netWord_lt mem (ip + 2)
  have payload := ipv4PayloadLen_word header
  have word := bswap16_lt (show netWord mem (ip + 2) - 20 < 2 ^ 16 by omega)
  have proto := (mem (ip + 9)).toNat_lt
  have joined : (mem (ip + 9)).toNat <<< 24 ||| bswap16 (netWord mem (ip + 2) - 20) =
      (mem (ip + 9)).toNat * 2 ^ 24 + bswap16 (netWord mem (ip + 2) - 20) := by
    rw [← shiftLeft_add_eq_or_of_lt (by omega), shiftLeft_eq]
  have source : 256 * mem.word (ip + 12) 4 ≡ netWord mem (ip + 12) + netWord mem (ip + 14) [MOD 65535] :=
    word_four_modEq mem (ip + 12)
  have destination : 256 * mem.word (ip + 16) 4 ≡ netWord mem (ip + 16) + netWord mem (ip + 18) [MOD 65535] :=
    word_four_modEq mem (ip + 16)
  have noSource : mem.word (ip + 12) 4 = 0 ↔ netWord mem (ip + 12) + netWord mem (ip + 14) = 0 :=
    word_four_eq_zero_iff mem (ip + 12)
  have noDestination : mem.word (ip + 16) 4 = 0 ↔ netWord mem (ip + 16) + netWord mem (ip + 18) = 0 :=
    word_four_eq_zero_iff mem (ip + 16)
  have sum : (ipv4PseudoHeader mem ip).sum = netWord mem (ip + 12) + netWord mem (ip + 14) +
      (netWord mem (ip + 16) + netWord mem (ip + 18)) + ((mem (ip + 9)).toNat + (netWord mem (ip + 2) - 20)) := by
    simp only [ipv4PseudoHeader, range_succ, range_zero, nil_append, map_append, map_cons,
      map_nil, List.sum_append, sum_cons, sum_nil, Nat.reduceMul, Nat.add_assoc, Nat.reduceAdd,
      Nat.add_zero]
  have shifted : 256 * ((mem (ip + 9)).toNat * 2 ^ 24) ≡ (mem (ip + 9)).toNat [MOD 65535] := by
    simp only [Nat.ModEq]
    omega
  have swapped := bswap16_modEq (show netWord mem (ip + 2) - 20 < 2 ^ 16 by omega)
  have noLength := bswap16_eq_zero_iff (show netWord mem (ip + 2) - 20 < 2 ^ 16 by omega)
  have bound := word_four_lt mem (ip + 12)
  have bound' := word_four_lt mem (ip + 16)
  have fold := fold_modEq (mem.word (ip + 12) 4 + mem.word (ip + 16) 4 +
    ((mem (ip + 9)).toNat * 2 ^ 24 + bswap16 (netWord mem (ip + 2) - 20))) (by omega)
  simp only [getIpv4PsdSum, payload, joined]
  refine ⟨fold.1, (fold.2.1.mul_left 256).trans ?_, fold.2.2.trans ?_⟩
  · rw [sum, Nat.mul_add, Nat.mul_add, Nat.mul_add]
    exact (source.add destination).add (shifted.add swapped)
  · rw [sum]
    omega

theorem getIpv6PsdSum_spec : getIpv6PsdSum mem ip < 2 ^ 16 ∧
    256 * getIpv6PsdSum mem ip ≡ (ipv6PseudoHeader mem ip).sum [MOD 65535] ∧
      (getIpv6PsdSum mem ip = 0 ↔ (ipv6PseudoHeader mem ip).sum = 0) := by
  have small := ipv6PsdHeader_lt mem ip
  have payload := netWord_modEq mem (ip + 4)
  have length := netWord_eq_zero_iff mem (ip + 4)
  rw [getIpv6PsdSum, get16bSum_eq small (by decide), OnesComplement.add_zero (OnesComplement.sum_lt small)]
  refine ⟨OnesComplement.sum_lt small, ((OnesComplement.sum_modEq _).mul_left 256).trans ?_, ?_⟩
  · have addresses := OnesComplement.sum_map_modEq 256 (fun i => netWord_modEq mem (ip + 8 + 2 * i)) (List.range 16)
    simp only [ipv6PsdHeader, ipv6PseudoHeader, words, List.sum_append, sum_cons, sum_nil, Nat.ModEq] at *
    omega
  · have addresses := OnesComplement.sum_map_eq_zero_iff (fun i => netWord_eq_zero_iff mem (ip + 8 + 2 * i))
      (List.range 16)
    rw [OnesComplement.sum_eq_zero_iff]
    simp only [ipv6PsdHeader, ipv6PseudoHeader, words, List.sum_append, sum_cons, sum_nil] at *
    omega

theorem bswap16_getIpv4PsdSum {mem : Memory} {ip : Nat} (header : 20 ≤ netWord mem (ip + 2)) :
    bswap16 (getIpv4PsdSum mem ip) = OnesComplement.sum (ipv4PseudoHeader mem ip) := by
  obtain ⟨word, value, zero⟩ := getIpv4PsdSum_spec header
  exact bswap16_eq_sum word (ipv4PseudoHeader_lt mem ip) value zero

theorem bswap16_getIpv6PsdSum : bswap16 (getIpv6PsdSum mem ip) = OnesComplement.sum (ipv6PseudoHeader mem ip) := by
  obtain ⟨word, value, zero⟩ := getIpv6PsdSum_spec mem ip
  exact bswap16_eq_sum word (ipv6PseudoHeader_lt mem ip) value zero

end

section
variable (mem : Memory)

theorem get16bSumAt_eq (ptr nr : Nat) : get16bSumAt mem ptr nr = OnesComplement.sum (segmentWords mem ptr nr) := by
  have small : ∀ w ∈ words mem ptr (nr / 2), w < 2 ^ 16 := forall_mem_map.mpr fun i _ => word_two_lt ..
  have byte := (mem (ptr + 2 * (nr / 2))).toNat_lt
  rw [get16bSumAt, segmentWords]
  by_cases odd : nr % 2 = 1
  · rw [if_pos odd, if_pos odd, get16bSum_eq small byte, OnesComplement.sum, OnesComplement.sum, foldl_append]
    rfl
  · rw [if_neg odd, if_neg odd, get16bSum_eq small (by decide), append_nil,
      OnesComplement.add_zero (OnesComplement.sum_lt small)]

end

/-- A word is the folded sum of a row of words in network byte order. -/
structure FoldedSum (p : Nat) (ws : List Nat) : Prop where
  sum : bswap16 p = OnesComplement.sum ws
  congruent : bswap16 p ≡ ws.sum [MOD 0xFFFF]
  zero : p = 0 → ∀ w ∈ ws, w = 0

theorem FoldedSum.of_sum {p : Nat} {ws : List Nat} (sum : bswap16 p = OnesComplement.sum ws) : FoldedSum p ws where
  sum := sum
  congruent := sum ▸ OnesComplement.sum_modEq ws
  zero nothing := by
    rw [nothing] at sum
    exact List.sum_eq_zero_iff_forall_eq_nat.mp (OnesComplement.sum_eq_zero_iff.mp sum.symm)

/-- The routines sum up the pseudo headers, and any number of bytes from an address on. -/
theorem psd_sums (mem : Memory) (ip : Nat) :
    (20 ≤ netWord mem (ip + 2) → (mem (ip + 9)).toNat < 128 →
      ipv4PayloadLen (mem.word (ip + 2) 2) = bswap16 (netWord mem (ip + 2) - 20) ∧
        FoldedSum (getIpv4PsdSum mem ip) (ipv4PseudoHeader mem ip)) ∧
    FoldedSum (getIpv6PsdSum mem ip) (ipv6PseudoHeader mem ip) ∧
    ∀ ptr nr, get16bSumAt mem ptr nr = OnesComplement.sum (segmentWords mem ptr nr) ∧
      FoldedSum (get16bSumAt mem ptr nr) (segment mem ptr nr) := by
  refine ⟨fun header _ => ⟨ipv4PayloadLen_word header, .of_sum (bswap16_getIpv4PsdSum header)⟩,
    .of_sum (bswap16_getIpv6PsdSum mem ip), fun ptr nr => ⟨get16bSumAt_eq mem ptr nr, .of_sum ?_⟩⟩
  rw [get16bSumAt_eq, bswap16_sum_segmentWords]

/-- A header of 300 bytes in all, from 10.0.0.1 to 10.0.0.2, with protocol 17. -/
def udpHeader4 : Memory := fun a =>
  if a = 2 ∨ a = 15 then 1 else if a = 3 then 44 else if a = 9 then 17 else if a = 12 ∨ a = 16 then 10
  else if a = 19 then 2 else 0

theorem psd_sums_udp : FoldedSum (getIpv4PsdSum udpHeader4 0) (ipv4PseudoHeader udpHeader4 0) ∧
    bswap16 (getIpv4PsdSum udpHeader4 0) = 0x152C :=
  ⟨((psd_sums udpHeader4 0).1 (by decide) (by decide)).2, by decide⟩

end MoonGen
