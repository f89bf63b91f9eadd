import MoonGen.Checksum.Pseudo

namespace MoonGen

def calcIpv4PseudoHeaderChecksum (mem : Memory) (offset : Nat) : Memory :=
  setU16 mem (2 * offset) (getIpv4PsdSum mem 14)

def calcIpv6PseudoHeaderChecksum (mem : Memory) (offset : Nat) : Memory :=
  setU16 mem (2 * offset) (getIpv6PsdSum mem 14)

/-- `setChecksum` of the TCP header at an address. -/
def TcpHeader.setChecksum (mem : Memory) (tcp int : Nat) : Memory := setU16 mem (tcp + 16) (bswap16 int)

/-- `tcpHeader:calculateChecksum` on a frame at address 0. The header lies behind the
Ethernet and the IP header. -/
def TcpHeader.calculateChecksum (mem : Memory) (len : Nat) (ipv4 : Bool) : Memory :=
  if ipv4 then
    let mem := calcIpv4PseudoHeaderChecksum mem 25
    setChecksum mem (14 + 20) (bswap16 (checksum mem (14 + 20) (len - (14 + 20))))
  else
    let mem := calcIpv6PseudoHeaderChecksum mem 30
    setChecksum mem (14 + 40) (bswap16 (checksum mem (14 + 40) (len - (14 + 40))))

/-- The pseudo header over IPv4: addresses, protocol and TCP length. -/
def pseudoHeader4 (mem : Memory) (len : Nat) : List Nat :=
  (List.range 4).map (fun i => netWord mem (26 + 2 * i)) ++ [(mem 23).toNat, len - 34]

/-- The pseudo header over IPv6: addresses, and length and next header in 32 bits each. -/
def pseudoHeader6 (mem : Memory) (len : Nat) : List Nat :=
  (List.range 16).map (fun i => netWord mem (22 + 2 * i)) ++ [(len - 54) / 2 ^ 16, (len - 54) % 2 ^ 16] ++
    [0, (mem 20).toNat]

/-- An Ethernet frame with an IPv4 header of 20 bytes and a TCP segment. -/
structure TcpFrame4 (mem : Memory) (len : Nat) : Prop where
  ihl : mem 14 = 0x45
  proto : mem 23 = 6
  total : netWord mem 16 = len - 14
  tcp : 54 ≤ len

/-- An Ethernet frame with an IPv6 header and a TCP segment right behind it. -/
structure TcpFrame6 (mem : Memory) (len : Nat) : Prop where
  nextHeader : mem 20 = 6
  payload : netWord mem 18 = len - 54
  tcp : 74 ≤ len

open TcpHeader

section
variable {mem : Memory} {a len : Nat}

theorem TcpFrame4.pseudoHeader_eq (frame : TcpFrame4 mem len) : pseudoHeader4 mem len = ipv4PseudoHeader mem 14 := by
  rw [pseudoHeader4, ipv4PseudoHeader, frame.total, Nat.sub_sub]

theorem TcpFrame6.pseudoHeader_eq (frame : TcpFrame6 mem len) : pseudoHeader6 mem len = ipv6PseudoHeader mem 14 := by
  have bound := netWord_lt mem 18
  rw [frame.payload] at bound
  rw [pseudoHeader6, ipv6PseudoHeader, frame.payload, Nat.div_eq_of_lt bound, Nat.mod_eq_of_lt bound]

theorem getIpv4PsdSum_modEq (frame : TcpFrame4 mem len) :
    getIpv4PsdSum mem 14 < 2 ^ 16 ∧ 256 * getIpv4PsdSum mem 14 ≡ (pseudoHeader4 mem len).sum [MOD 65535] := by
  have tcp := frame.tcp
  have total := frame.total
  have header : 20 ≤ netWord mem (14 + 2) := by rw [total]; omega
  obtain ⟨word, value, _⟩ := getIpv4PsdSum_spec header
  exact ⟨word, frame.pseudoHeader_eq ▸ value⟩

theorem pseudoHeader4_lt (frame : TcpFrame4 mem len) : ∀ w ∈ pseudoHeader4 mem len, w < 2 ^ 16 :=
  frame.pseudoHeader_eq ▸ ipv4PseudoHeader_lt mem 14

theorem pseudoHeader6_lt (frame : TcpFrame6 mem len) : ∀ w ∈ pseudoHeader6 mem len, w < 2 ^ 16 :=
  frame.pseudoHeader_eq ▸ ipv6PseudoHeader_lt mem 14

theorem netWords_congr {mem' : Memory} {n : Nat} (same : ∀ b < a + 2 * n, mem' b = mem b) :
    (List.range n).map (fun i => netWord mem' (a + 2 * i)) = (List.range n).map fun i => netWord mem (a + 2 * i) := by
  refine List.map_congr_left fun i member => ?_
  have bound := List.mem_range.mp member
  rw [netWord, netWord, same _ (by omega), same _ (by omega)]

theorem pseudoHeader4_congr {mem' : Memory} (same : ∀ b < 34, mem' b = mem b) (len : Nat) :
    pseudoHeader4 mem' len = pseudoHeader4 mem len := by
  rw [pseudoHeader4, pseudoHeader4, netWords_congr same, same 23 (by omega)]

theorem pseudoHeader6_congr {mem' : Memory} (same : ∀ b < 54, mem' b = mem b) (len : Nat) :
    pseudoHeader6 mem' len = pseudoHeader6 mem len := by
  rw [pseudoHeader6, pseudoHeader6, netWords_congr same, same 20 (by omega)]

theorem pseudoHeader6_sum_ne_zero (frame : TcpFrame6 mem len) : (pseudoHeader6 mem len).sum ≠ 0 := by
  rw [pseudoHeader6, List.sum_append, frame.nextHeader]
  simp

/-- The source adds up the pseudo header over IPv6 with the bytes of each word swapped. -/
theorem TcpFrame6.bswap16_getIpv6PsdSum (frame : TcpFrame6 mem len) :
    bswap16 (getIpv6PsdSum mem 14) = OnesComplement.sum (pseudoHeader6 mem len) := by
  rw [frame.pseudoHeader_eq, MoonGen.bswap16_getIpv6PsdSum]

/-- The checksum is stored as it is, behind two byte swaps. -/
theorem TcpHeader.setChecksum_checksum (mem : Memory) (a len : Nat) :
    setChecksum mem a (bswap16 (checksum mem a len)) = setU16 mem (a + 16) (checksum mem a len) := by
  have complement := checksum_eq mem a len
  rw [setChecksum, bswap16_bswap16 (by omega)]

end

/-- A TCP segment over IPv4 gets its checksum. -/
theorem TcpHeader.calculateChecksum_ipv4 {mem : Memory} {len : Nat} (frame : TcpFrame4 mem len) :
    OnesComplement.sum (pseudoHeader4 (calculateChecksum mem len true) len ++
      segment (calculateChecksum mem len true) 34 (len - 34)) = 0xFFFF ∧
    ∀ a, a ≠ 50 → a ≠ 51 → calculateChecksum mem len true a = mem a := by
  obtain ⟨word, value⟩ := getIpv4PsdSum_modEq frame
  have tcp := frame.tcp
  have result : calculateChecksum mem len true = setU16 (setU16 mem 50 (getIpv4PsdSum mem 14)) 50
      (checksum (setU16 mem 50 (getIpv4PsdSum mem 14)) 34 (len - 34)) := setChecksum_checksum ..
  have other (a : Nat) (first : a ≠ 50) (second : a ≠ 51) : calculateChecksum mem len true a = mem a := by
    rw [result, setU16_of_ne _ _ _ first second, setU16_of_ne _ _ _ first second]
  have nonzero : (pseudoHeader4 mem len).sum ≠ 0 := by
    rw [pseudoHeader4, List.sum_append, frame.proto]
    simp
  refine ⟨?_, other⟩
  rw [pseudoHeader4_congr fun b bound => other b (by omega) (by omega),
    accepted_iff _ _ (pseudoHeader4_lt frame) nonzero value, result]
  have balance := segmentWords_checksum (setU16 mem 50 (getIpv4PsdSum mem 14)) 34 (show 8 < (len - 34) / 2 by omega)
  rw [word_setU16 _ _ _ word, Nat.add_comm] at balance
  exact balance

/-- Over IPv6 the sum of the pseudo header goes to the sequence number. The checksum is
right only when the field held that sum before, and the frame stays as it was only when
the sequence number did. -/
theorem TcpHeader.calculateChecksum_ipv6 {mem : Memory} {len : Nat} (frame : TcpFrame6 mem len) :
    (OnesComplement.sum (pseudoHeader6 (calculateChecksum mem len false) len ++
      segment (calculateChecksum mem len false) 54 (len - 54)) = 0xFFFF ∧
      ∀ a < len, a ≠ 70 → a ≠ 71 → calculateChecksum mem len false a = mem a) ↔
    netWord mem 60 = OnesComplement.sum (pseudoHeader6 mem len) ∧
      netWord mem 70 ≡ OnesComplement.sum (pseudoHeader6 mem len) [MOD 65535] := by
  obtain ⟨word, value, _⟩ := getIpv6PsdSum_spec mem 14
  rw [← frame.pseudoHeader_eq] at value
  have swapped := frame.bswap16_getIpv6PsdSum
  have tcp := frame.tcp
  have result : calculateChecksum mem len false = setU16 (setU16 mem 60 (getIpv6PsdSum mem 14)) 70
      (checksum (setU16 mem 60 (getIpv6PsdSum mem 14)) 54 (len - 54)) := setChecksum_checksum ..
  have other (a : Nat) (first : a ≠ 70) (second : a ≠ 71) :
      calculateChecksum mem len false a = setU16 mem 60 (getIpv6PsdSum mem 14) a := by
    rw [result, setU16_of_ne _ _ _ first second]
  have head (b : Nat) (bound : b < 54) : calculateChecksum mem len false b = mem b := by
    rw [other b (by omega) (by omega), setU16_of_ne _ _ _ (by omega) (by omega)]
  have balance := segmentWords_checksum (setU16 mem 60 (getIpv6PsdSum mem 14)) 54 (show 8 < (len - 54) / 2 by omega)
  rw [word_setU16_of_far _ _ _ (by omega)] at balance
  have unchanged : (∀ a < len, a ≠ 70 → a ≠ 71 → calculateChecksum mem len false a = mem a) ↔
      mem.word 60 2 = getIpv6PsdSum mem 14 := by
    refine ⟨fun same => ?_, fun held a _ first second => ?_⟩
    · refine word_eq_of_kept mem 60 _ word ?_ ?_
      · rw [← other 60 (by omega) (by omega), same 60 (by omega) (by omega) (by omega)]
      · rw [← other 61 (by omega) (by omega), same 61 (by omega) (by omega) (by omega)]
    · rw [other a first second, ← held, setU16_word]
  have same : mem.word 60 2 = getIpv6PsdSum mem 14 ↔ netWord mem 60 = OnesComplement.sum (pseudoHeader6 mem len) := by
    rw [netWord_eq, ← swapped]
    exact ⟨congrArg bswap16, bswap16_inj (word_two_lt mem 60) word⟩
  have field := netWord_modEq mem 70
  have shifted := bswap16_modEq word
  rw [pseudoHeader6_congr head, accepted_iff _ _ (pseudoHeader6_lt frame) (pseudoHeader6_sum_ne_zero frame) value,
    unchanged, same, and_comm, result, ← swapped]
  refine and_congr_right fun _ => ?_
  simp only [Nat.ModEq, Nat.reduceMul, Nat.reduceAdd] at *
  omega

/-- `tcpHeader:calculateChecksum` over both versions of IP. -/
theorem tcp_checksum_iff (mem : Memory) (len : Nat) :
    (TcpFrame4 mem len →
      OnesComplement.sum (pseudoHeader4 (calculateChecksum mem len true) len ++
        segment (calculateChecksum mem len true) 34 (len - 34)) = 0xFFFF ∧
      ∀ a, a ≠ 50 → a ≠ 51 → calculateChecksum mem len true a = mem a) ∧
    (TcpFrame6 mem len →
      ((OnesComplement.sum (pseudoHeader6 (calculateChecksum mem len false) len ++
        segment (calculateChecksum mem len false) 54 (len - 54)) = 0xFFFF ∧
        ∀ a < len, a ≠ 70 → a ≠ 71 → calculateChecksum mem len false a = mem a) ↔
      netWord mem 60 = OnesComplement.sum (pseudoHeader6 mem len) ∧
        netWord mem 70 ≡ OnesComplement.sum (pseudoHeader6 mem len) [MOD 65535])) :=
  ⟨calculateChecksum_ipv4, calculateChecksum_ipv6⟩

/-- A frame that is blank but for what its headers need. -/
def blankFrame4 : Memory := fun a => if a = 14 then 0x45 else if a = 17 then 40 else if a = 23 then 6 else 0

def blankFrame6 : Memory := fun a => if a = 19 then 20 else if a = 20 then 6 else 0

/-- The sum of the pseudo header is where the routine puts it and where it should. -/
def filledFrame6 : Memory := fun a => if a = 61 ∨ a = 71 then 26 else blankFrame6 a

theorem tcp_checksum_iff_blank :
    OnesComplement.sum (pseudoHeader4 (calculateChecksum blankFrame4 54 true) 54 ++
      segment (calculateChecksum blankFrame4 54 true) 34 20) = 0xFFFF ∧
    OnesComplement.sum (pseudoHeader6 (calculateChecksum filledFrame6 74 false) 74 ++
      segment (calculateChecksum filledFrame6 74 false) 54 20) = 0xFFFF := by
  refine ⟨((tcp_checksum_iff blankFrame4 54).1 ⟨rfl, rfl, rfl, Nat.le_refl 54⟩).1, ?_⟩
  refine (((tcp_checksum_iff filledFrame6 74).2 ⟨rfl, rfl, Nat.le_refl 74⟩).mpr ?_).1
  decide +kernel

theorem tcp_checksum_ipv6_wrong : TcpFrame6 blankFrame6 74 ∧
    OnesComplement.sum (pseudoHeader6 (calculateChecksum blankFrame6 74 false) 74 ++
      segment (calculateChecksum blankFrame6 74 false) 54 20) ≠ 0xFFFF ∧
    calculateChecksum blankFrame6 74 false 61 ≠ blankFrame6 61 := by
  refine ⟨⟨rfl, rfl, Nat.le_refl 74⟩, ?_⟩
  decide +kernel

end MoonGen
