import Mathlib.Data.Rat.Floor
import MoonGen.Checksum.Words
import MoonGen.Packet.Stack

namespace MoonGen.Packet

open List

/-- What a bit operation takes from a number: the nearest integer, of two the
even one, and of that the low 32 bits. -/
def tobit (x : ℚ) : BitVec 32 :=
  let low := ⌊x⌋
  let rest := x - low
  .ofInt 32 (if rest < 1 / 2 ∨ rest = 1 / 2 ∧ low % 2 = 0 then low else low + 1)

/-- `hton16` with the store in a field of 16 bits. -/
def hton16 (x : ℚ) : BitVec 16 := .ofNat 16 (bswap16 (tobit x).toNat)

/-- The statements of the generated function: which member gets a length, and
how much is taken off the length of the packet. -/
def packetSetLength : Nat → List HeaderData → List (String × Nat)
  | _, [] => []
  | accumulatedLength, h :: headers =>
    let rest := packetSetLength (accumulatedLength + h.baseSize) headers
    match h.proto, h.subType with
    | .ip4, none | .udp, none | .ptp, none | .ipfix, none => (h.name, accumulatedLength) :: rest
    | .ip6, none => (h.name, accumulatedLength + 40) :: rest
    | _, _ => rest

/-- `pkt:setLength(length)`: the length fields it sets. -/
def Stack.setLength (stack : Stack) (length : Nat) : List (String × BitVec 16) :=
  (packetSetLength 0 stack.headers).map fun (member, offset) => (member, hton16 (length - offset))

/-- The table of named arguments, of which the numbers matter here. -/
abbrev NamedArgs := String → Option ℚ

/-- `if not namedArgs[key] then namedArgs[key] = value end` -/
def NamedArgs.setIfUnset (namedArgs : NamedArgs) (key : String) (value : Option ℚ) : NamedArgs :=
  fun k => if k = key then (namedArgs key).or value else namedArgs k

/-- The value that a header takes from a map when it has none. -/
def nextValue (map : List (Proto × Nat)) (nextHeader : Option Proto) : Option ℚ :=
  (nextHeader.bind (map.lookup ·)).map Nat.cast

/-- The port of the next header, the first one of several. -/
def nextPort (nextHeader : Option Proto) : Option ℚ :=
  ((nextHeader.bind (mapNamePort.lookup ·)).bind List.head?).map Nat.cast

/-- The part that `ip4`, `ip6`, `udp`, `ptp` and `ipfix` share: the length of the
packet without what stands before. -/
def NamedArgs.defaultLength (namedArgs : NamedArgs) (pre : String) (accumulatedLength : Nat) : NamedArgs :=
  namedArgs.setIfUnset (pre ++ "Length") ((namedArgs "pktLength").map (· - accumulatedLength))

/-- `setDefaultNamedArgs` of the header's protocol. -/
def setDefaultNamedArgs (proto : Proto) (pre : String) (namedArgs : NamedArgs) (nextHeader : Option Proto)
    (accumulatedLength headerLength : Nat) : NamedArgs :=
  match proto with
  | .ethernet => namedArgs.setIfUnset (pre ++ "Type") (nextValue mapNameType nextHeader)
  | .ip4 =>
    let namedArgs := namedArgs.defaultLength pre accumulatedLength
    let namedArgs := namedArgs.setIfUnset (pre ++ "Protocol") (nextValue (mapNameProto 0x01) nextHeader)
    namedArgs.setIfUnset (pre ++ "HeaderLength") (some (headerLength / 4))
  | .ip6 =>
    let namedArgs := namedArgs.defaultLength pre (accumulatedLength + 40)
    namedArgs.setIfUnset (pre ++ "NextHeader") (nextValue (mapNameProto 0x3a) nextHeader)
  | .udp =>
    let namedArgs := namedArgs.defaultLength pre accumulatedLength
    namedArgs.setIfUnset (pre ++ "Dst") (nextPort nextHeader)
  | .tcp => namedArgs.setIfUnset (pre ++ "DataOffset") (some (headerLength / 4))
  | .ptp | .ipfix => namedArgs.defaultLength pre accumulatedLength
  | _ => namedArgs

/-- The length that `setLength` of a header takes when it gets none. -/
def defaultLength : Proto → Option ℚ
  | .ip4 => some 48
  | .ip6 => some 8
  | .udp => some 28
  | .ptp => some 44
  | .ipfix => some 0
  | _ => none

/-- `packetFill`: the length fields it sets, one header after another with the
named arguments so far. -/
def packetFill : NamedArgs → Nat → List HeaderData → List (String × BitVec 16)
  | _, _, [] => []
  | namedArgs, accumulatedLength, h :: headers =>
    let nextHeader := headers.head?.map (·.proto)
    let namedArgs := setDefaultNamedArgs h.proto h.name namedArgs nextHeader accumulatedLength h.size
    let rest := packetFill namedArgs (accumulatedLength + h.size) headers
    match defaultLength h.proto with
    | some length => (h.name, hton16 ((namedArgs (h.name ++ "Length")).getD length)) :: rest
    | none => rest

/-- `pkt:fill{ pktLength = length }` -/
def Stack.fill (stack : Stack) (length : Nat) : List (String × BitVec 16) :=
  packetFill (fun key => if key = "pktLength" then some (length : ℚ) else none) 0 stack.headers

/-- How much of its own length field a header leaves out, for the headers that
have one. -/
def lengthOffset : Proto → Option Nat
  | .ip4 | .udp | .ptp | .ipfix => some 0
  | .ip6 => some 40
  | _ => none

def sizes (headers : List HeaderData) : Nat := (headers.map HeaderData.size).sum

def baseSizes (headers : List HeaderData) : Nat := (headers.map HeaderData.baseSize).sum

def variableSizes (headers : List HeaderData) : Nat := (headers.map HeaderData.variableSize).sum

/-- When both ways give a header the same length: none of the headers before it
has a variable part, up to what `hton16` cannot tell from none. A member `pkt`
takes the length of the packet for its own, and a member whose name adds `Header`
to that of an earlier `ip4` header takes that header's length. -/
def LengthAgrees (before : List HeaderData) (h : HeaderData) (offset : Nat) : Prop :=
  (∀ g ∈ before, g.proto = .ip4 → g.name ++ "Header" ≠ h.name) ∧
    (if h.name = "pkt" then baseSizes before + offset else variableSizes before) % 2 ^ 24 = 0

section ByteSwap

theorem getLsbD_lowByte (n : BitVec 32) (i : Nat) : (n &&& 0xFF).getLsbD i = (decide (i < 8) && n.getLsbD i) := by
  have mask : (0xFF : BitVec 32) = (BitVec.allOnes 8).setWidth 32 := by decide
  rw [mask, BitVec.getLsbD_and, BitVec.getLsbD_setWidth, BitVec.getLsbD_allOnes, Bool.and_comm]
  by_cases small : i < 8
  · have below : i < 32 := by omega
    simp [small, below]
  · simp [small]

theorem ofNat_bswap16 (n : BitVec 32) :
    BitVec.ofNat 16 (bswap16 n.toNat) = ((n >>> 8) ||| ((n &&& 0xFF) <<< 8)).setWidth 16 := by
  rw [bswap16, BitVec.ofNat_toNat, BitVec.ofNat_toNat, BitVec.setWidth_eq]

theorem getLsbD_bswap16 (n : BitVec 32) {i : Nat} (low : i < 16) :
    (BitVec.ofNat 16 (bswap16 n.toNat)).getLsbD i = (n.getLsbD (8 + i) || (decide (8 ≤ i) && n.getLsbD (i - 8))) := by
  have small : i - 8 < 8 := by omega
  have below : i < 32 := by omega
  rw [ofNat_bswap16, BitVec.getLsbD_setWidth, BitVec.getLsbD_or, BitVec.getLsbD_ushiftRight, BitVec.getLsbD_shiftLeft,
    getLsbD_lowByte]
  rcases Nat.lt_or_ge i 8 with first | second
  · simp [first, low]
  · simp [Nat.not_lt.mpr second, second, low, small, below]

/-- The swapped field depends on the low three bytes. -/
theorem bswap16_congr {m n : BitVec 32} (same : m.setWidth 24 = n.setWidth 24) :
    BitVec.ofNat 16 (bswap16 m.toNat) = BitVec.ofNat 16 (bswap16 n.toNat) := by
  have bits (i : Nat) (low : i < 24) : m.getLsbD i = n.getLsbD i := by
    simpa [low] using congrArg (BitVec.getLsbD · i) same
  refine BitVec.eq_of_getLsbD_eq fun i low => ?_
  rw [getLsbD_bswap16 m low, getLsbD_bswap16 n low, bits _ (by omega), bits (i - 8) (by omega)]

theorem setWidth_of_bswap16_eq_zero {n : BitVec 32} (zero : BitVec.ofNat 16 (bswap16 n.toNat) = 0) :
    n.setWidth 24 = 0#24 := by
  have bits (i : Nat) (low : i < 16) : n.getLsbD (8 + i) = false ∧ (8 ≤ i → n.getLsbD (i - 8) = false) := by
    have bit := getLsbD_bswap16 n low
    rw [zero] at bit
    simpa using bit.symm
  refine BitVec.eq_of_getLsbD_eq fun i low => ?_
  rw [BitVec.getLsbD_setWidth]
  rcases Nat.lt_or_ge i 8 with first | second
  · have bit := (bits (i + 8) (by omega)).2 (by omega)
    simpa [low] using bit
  · have bit := (bits (i - 8) (by omega)).1
    simpa [low, second] using bit

theorem tobit_natCast (k : Nat) : tobit k = .ofNat 32 k := by
  simp [tobit]

theorem hton16_congr {j k : Nat} (same : j % 2 ^ 24 = k % 2 ^ 24) : hton16 j = hton16 k := by
  rw [hton16, hton16, tobit_natCast, tobit_natCast]
  refine bswap16_congr (BitVec.eq_of_toNat_eq ?_)
  simp only [BitVec.toNat_setWidth, BitVec.toNat_ofNat]
  omega

theorem mod_eq_zero_of_hton16 {k : Nat} (zero : hton16 k = 0) : k % 2 ^ 24 = 0 := by
  rw [hton16, tobit_natCast] at zero
  have low := congrArg BitVec.toNat (setWidth_of_bswap16_eq_zero zero)
  simp only [BitVec.toNat_setWidth, BitVec.toNat_ofNat] at low
  omega

theorem hton16_mul (k : Nat) : hton16 ((2 ^ 24 * k : Nat) : ℚ) = 0 := by
  rw [hton16_congr (k := 0) (by omega)]
  decide +kernel

theorem natCast_sub {n a : Nat} (small : a ≤ n) : (n : ℚ) - a = ((n - a : Nat) : ℚ) := (Nat.cast_sub small).symm

theorem hton16_sub_eq_iff {N a b : Nat} (left : a ≤ N) (right : b ≤ N) :
    (∀ n, N ≤ n → hton16 ((n : ℚ) - a) = hton16 ((n : ℚ) - b)) ↔ a % 2 ^ 24 = b % 2 ^ 24 := by
  constructor
  · intro same
    -- a length at which the left side is zero
    have at_zero := same (a + 2 ^ 24 * N) (by omega)
    rw [natCast_sub (by omega), natCast_sub (by omega), Nat.add_sub_cancel_left, hton16_mul] at at_zero
    have zero := mod_eq_zero_of_hton16 at_zero.symm
    omega
  · intro same n large
    rw [natCast_sub (by omega), natCast_sub (by omega)]
    exact hton16_congr (by omega)

theorem not_hton16_eq_const {N a : Nat} (c : BitVec 16) : ¬ ∀ n, N ≤ n → hton16 ((n : ℚ) - a) = c := by
  intro constant
  have first := constant (a + 2 ^ 24 * N) (by omega)
  have second := constant (a + 2 ^ 24 * N + 1) (by omega)
  rw [natCast_sub (by omega), Nat.add_sub_cancel_left, hton16_mul] at first
  rw [natCast_sub (by omega)] at second
  have zero := mod_eq_zero_of_hton16 (second.trans first.symm)
  omega

end ByteSwap

section NamedArgs

/-- Names with different last characters differ. -/
theorem append_ne_append {s t : String} (first : s.toList ≠ []) (second : t.toList ≠ [])
    (other : s.toList.getLast? ≠ t.toList.getLast?) (a b : String) : a ++ s ≠ b ++ t := by
  intro same
  have last := congrArg (fun s => s.toList.getLast?) same
  simp only [String.toList_append] at last
  rw [getLast?_append_of_ne_nil _ first, getLast?_append_of_ne_nil _ second] at last
  exact other last

theorem append_length_ne {a b suffix : String} (other : suffix.toList.getLast? ≠ some 'h')
    (nonempty : suffix.toList ≠ []) : a ++ "Length" ≠ b ++ suffix :=
  append_ne_append (by decide) nonempty (fun same => other (same.symm.trans (by decide))) a b

theorem append_headerLength_eq_iff {a b : String} : a ++ "Length" = b ++ "HeaderLength" ↔ b ++ "Header" = a := by
  have split : b ++ "HeaderLength" = (b ++ "Header") ++ "Length" := by
    rw [String.append_assoc]
    rfl
  rw [split, String.append_left_inj, eq_comm]

theorem append_header_ne_pkt (name : String) : name ++ "Header" ≠ "pkt" :=
  @append_ne_append "Header" "pkt" (by decide) (by decide) (by decide) name ""

variable {namedArgs : NamedArgs} {proto : Proto} {pre : String} {nextHeader : Option Proto} {acc size : Nat}

@[simp] theorem setIfUnset_self (key : String) (value : Option ℚ) :
    namedArgs.setIfUnset key value key = (namedArgs key).or value := by
  simp [NamedArgs.setIfUnset]

@[simp] theorem setIfUnset_of_ne {key k : String} (other : k ≠ key) (value : Option ℚ) :
    namedArgs.setIfUnset key value k = namedArgs k := by
  simp [NamedArgs.setIfUnset, other]

theorem setIfUnset_of_some {key k : String} {v : ℚ} (given : namedArgs k = some v) (value : Option ℚ) :
    namedArgs.setIfUnset key value k = some v := by
  by_cases same : k = key
  · subst same
    simp [given]
  · simp [same, given]

/-- A named argument that is set keeps its value. -/
theorem setDefaultNamedArgs_of_some {k : String} {v : ℚ} (given : namedArgs k = some v) :
    setDefaultNamedArgs proto pre namedArgs nextHeader acc size k = some v := by
  cases proto with
  | ethernet | tcp | ptp | ipfix => exact setIfUnset_of_some given _
  | ip6 | udp => exact setIfUnset_of_some (setIfUnset_of_some given _) _
  | ip4 => exact setIfUnset_of_some (setIfUnset_of_some (setIfUnset_of_some given _) _) _
  | _ => exact given

/-- The length of another member, which only an `ip4` header can set. -/
theorem setDefaultNamedArgs_of_ne {m : String} (other : m ≠ pre) :
    setDefaultNamedArgs proto pre namedArgs nextHeader acc size (m ++ "Length") =
      if proto = .ip4 ∧ pre ++ "Header" = m then (namedArgs (m ++ "Length")).or (some (size / 4))
      else namedArgs (m ++ "Length") := by
  have own : m ++ "Length" ≠ pre ++ "Length" := by simpa using other
  have ne (suffix : String) (last : suffix.toList.getLast? ≠ some 'h') (nonempty : suffix.toList ≠ []) :=
    @append_length_ne m pre suffix last nonempty
  cases proto with
  | ethernet => simp [setDefaultNamedArgs, ne "Type" (by decide) (by decide)]
  | tcp => simp [setDefaultNamedArgs, ne "DataOffset" (by decide) (by decide)]
  | ptp | ipfix => simp [setDefaultNamedArgs, NamedArgs.defaultLength, own]
  | ip6 => simp [setDefaultNamedArgs, NamedArgs.defaultLength, own, ne "NextHeader" (by decide) (by decide)]
  | udp => simp [setDefaultNamedArgs, NamedArgs.defaultLength, own, ne "Dst" (by decide) (by decide)]
  | ip4 =>
    by_cases header : pre ++ "Header" = m
    · have key : m ++ "Length" = pre ++ "HeaderLength" := append_headerLength_eq_iff.mpr header
      simp only [setDefaultNamedArgs, NamedArgs.defaultLength, header, and_true, if_true]
      rw [← key, setIfUnset_self, setIfUnset_of_ne (ne "Protocol" (by decide) (by decide)), setIfUnset_of_ne own]
    · have key : m ++ "Length" ≠ pre ++ "HeaderLength" := fun same => header (append_headerLength_eq_iff.mp same)
      simp [setDefaultNamedArgs, NamedArgs.defaultLength, own, key, header, ne "Protocol" (by decide) (by decide)]
  | _ => simp [setDefaultNamedArgs]

theorem setDefaultNamedArgs_self {n : ℚ} {offset : Nat} (carries : lengthOffset proto = some offset)
    (given : namedArgs "pktLength" = some n) :
    setDefaultNamedArgs proto pre namedArgs nextHeader acc size (pre ++ "Length") =
      (namedArgs (pre ++ "Length")).or (some (n - (acc + offset : Nat))) := by
  have ne (suffix : String) (last : suffix.toList.getLast? ≠ some 'h') (nonempty : suffix.toList ≠ []) :=
    @append_length_ne pre pre suffix last nonempty
  cases proto with
  | ip4 =>
    cases carries
    have key : pre ++ "Length" ≠ pre ++ "HeaderLength" := by simp
    simp [setDefaultNamedArgs, NamedArgs.defaultLength, given, key, ne "Protocol" (by decide) (by decide)]
  | ip6 =>
    cases carries
    simp [setDefaultNamedArgs, NamedArgs.defaultLength, given, ne "NextHeader" (by decide) (by decide)]
  | udp =>
    cases carries
    simp [setDefaultNamedArgs, NamedArgs.defaultLength, given, ne "Dst" (by decide) (by decide)]
  | ptp | ipfix =>
    cases carries
    simp [setDefaultNamedArgs, NamedArgs.defaultLength, given]
  | _ => cases carries

end NamedArgs

/-- The `ip4` header among those before that has set the length of a member. -/
def lengthTaken (before : List HeaderData) (member : String) : Option HeaderData :=
  before.find? fun g => g.proto = .ip4 ∧ g.name ++ "Header" = member

/-- The named arguments when some headers are filled: the lengths of the members
to come. -/
structure Filled (n : Nat) (seen : List HeaderData) (namedArgs : NamedArgs) : Prop where
  pktLength : namedArgs "pktLength" = some (n : ℚ)
  length : ∀ m, (∀ g ∈ seen, g.name ≠ m) →
    namedArgs (m ++ "Length") = if m = "pkt" then some (n : ℚ) else (lengthTaken seen m).map fun g => (g.size : ℚ) / 4

theorem filled_nil (n : Nat) : Filled n [] fun key => if key = "pktLength" then some (n : ℚ) else none where
  pktLength := rfl
  length m _ := by
    have key : m ++ "Length" = "pktLength" ↔ m = "pkt" := @String.append_left_inj m "pkt" "Length"
    simp [key, lengthTaken]

variable {seen : List HeaderData}

theorem Filled.step {n : Nat} {namedArgs : NamedArgs} (filled : Filled n seen namedArgs)
    (h : HeaderData) (nextHeader : Option Proto) (acc : Nat) :
    Filled n (seen ++ [h]) (setDefaultNamedArgs h.proto h.name namedArgs nextHeader acc h.size) where
  pktLength := setDefaultNamedArgs_of_some filled.pktLength
  length m fresh := by
    have before : ∀ g ∈ seen, g.name ≠ m := fun g member => fresh g (by simp [member])
    have other : m ≠ h.name := (fresh h (by simp)).symm
    rw [setDefaultNamedArgs_of_ne other, filled.length m before]
    by_cases pkt : m = "pkt"
    · simp [pkt]
    · rw [if_neg pkt, if_neg pkt, lengthTaken, lengthTaken, find?_append]
      by_cases takes : h.proto = .ip4 ∧ h.name ++ "Header" = m
      · cases seen.find? fun g => g.proto = .ip4 ∧ g.name ++ "Header" = m <;> simp [takes]
      · simp only [takes, if_false]
        cases seen.find? fun g => g.proto = .ip4 ∧ g.name ++ "Header" = m <;> simp [takes]

/-- The length that `fill` gives a header behind others. -/
def filledLength (n : Nat) (before : List HeaderData) (h : HeaderData) (offset : Nat) : ℚ :=
  if h.name = "pkt" then n
  else
    match lengthTaken before h.name with
    | some g => g.size / 4
    | none => n - (sizes before + offset : Nat)

theorem sizes_append (before after : List HeaderData) : sizes (before ++ after) = sizes before + sizes after := by
  simp [sizes]

theorem sizes_eq (headers : List HeaderData) : sizes headers = baseSizes headers + variableSizes headers := by
  induction headers with
  | nil => rfl
  | cons h headers ih =>
    simp only [sizes, baseSizes, variableSizes, map_cons, sum_cons, HeaderData.size] at ih ⊢
    omega

variable {h : HeaderData}

theorem Filled.own {n : Nat} {namedArgs : NamedArgs} (filled : Filled n seen namedArgs)
    (fresh : ∀ g ∈ seen, g.name ≠ h.name) {offset : Nat} (carries : lengthOffset h.proto = some offset)
    (nextHeader : Option Proto) :
    setDefaultNamedArgs h.proto h.name namedArgs nextHeader (sizes seen) h.size (h.name ++ "Length") =
      some (filledLength n seen h offset) := by
  rw [setDefaultNamedArgs_self carries filled.pktLength, filled.length h.name fresh, filledLength]
  by_cases pkt : h.name = "pkt"
  · simp [pkt]
  · rw [if_neg pkt, if_neg pkt]
    cases lengthTaken seen h.name <;> simp

theorem packetFill_cons {n : Nat} {namedArgs : NamedArgs} (filled : Filled n seen namedArgs)
    (fresh : ∀ g ∈ seen, g.name ≠ h.name) (headers : List HeaderData) :
    ∃ after, Filled n (seen ++ [h]) after ∧
      packetFill namedArgs (sizes seen) (h :: headers) =
        match lengthOffset h.proto with
        | some offset =>
          (h.name, hton16 (filledLength n seen h offset)) :: packetFill after (sizes (seen ++ [h])) headers
        | none => packetFill after (sizes (seen ++ [h])) headers := by
  refine ⟨_, filled.step h (headers.head?.map (·.proto)) (sizes seen), ?_⟩
  have total : sizes (seen ++ [h]) = sizes seen + h.size := by simp [sizes]
  rw [packetFill, total]
  cases carries : lengthOffset h.proto with
  | none =>
    have default : defaultLength h.proto = none := by
      revert carries
      cases h.proto <;> simp [lengthOffset, defaultLength]
    simp only [default]
  | some offset =>
    obtain ⟨length, default⟩ : ∃ length, defaultLength h.proto = some length := by
      revert carries
      cases h.proto <;> simp [lengthOffset, defaultLength]
    simp only [default, filled.own fresh carries, Option.getD_some]

theorem packetSetLength_cons (known : (headerFormat h.proto h.subType).isSome) (acc : Nat)
    (headers : List HeaderData) :
    packetSetLength acc (h :: headers) =
      match lengthOffset h.proto with
      | some offset => (h.name, acc + offset) :: packetSetLength (acc + h.baseSize) headers
      | none => packetSetLength (acc + h.baseSize) headers := by
  obtain ⟨proto, name, length, subType⟩ := h
  cases subType with
  | none => cases proto <;> rfl
  | some subType =>
    cases proto with
    | ethernet | sflow => rfl
    | _ => simp [headerFormat] at known

/-- One header: both ways agree on its length for every long enough packet. -/
theorem lengthAgrees_iff {N : Nat} {before : List HeaderData} {offset : Nat} (large : sizes before + offset ≤ N) :
    (∀ n : Nat, N ≤ n →
        hton16 ((n : ℚ) - (baseSizes before + offset : Nat)) = hton16 (filledLength n before h offset)) ↔
      LengthAgrees before h offset := by
  have total := sizes_eq before
  rw [LengthAgrees]
  by_cases pkt : h.name = "pkt"
  · have apart : ∀ g ∈ before, g.proto = .ip4 → g.name ++ "Header" ≠ h.name := by
      intro g _ _ same
      exact append_header_ne_pkt g.name (same.trans pkt)
    simp only [filledLength, pkt, if_true]
    rw [← pkt, and_iff_right apart, ← Nat.zero_mod (2 ^ 24), ← hton16_sub_eq_iff (N := N) (by omega) (by omega)]
    simp
  · cases taken : lengthTaken before h.name with
    | some g =>
      have found := find?_some taken
      simp only [decide_eq_true_eq] at found
      simp only [filledLength, pkt, if_false, taken]
      constructor
      · intro same
        exact absurd same (not_hton16_eq_const _)
      · intro agrees
        exact absurd found.2 (agrees.1 g (mem_of_find?_eq_some taken) found.1)
    | none =>
      have apart : ∀ g ∈ before, g.proto = .ip4 → g.name ++ "Header" ≠ h.name := by
        intro g member ip4 same
        have free := find?_eq_none.mp taken g member
        simp [ip4, same] at free
      simp only [filledLength, pkt, if_false, taken]
      rw [and_iff_right apart, hton16_sub_eq_iff (by omega) (by omega)]
      omega

theorem forall_split_cons {α : Type} {P : List α → α → Prop} {a : α} {l : List α} :
    (∀ before x after, a :: l = before ++ x :: after → P before x) ↔
      P [] a ∧ ∀ before x after, l = before ++ x :: after → P (a :: before) x := by
  constructor
  · intro all
    exact ⟨all [] a l rfl, fun before x after split => all (a :: before) x after (by rw [split, cons_append])⟩
  · rintro ⟨first, rest⟩ before x after split
    cases before with
    | nil =>
      cases split
      exact first
    | cons b before =>
      rw [cons_append, List.cons.injEq] at split
      obtain ⟨rfl, split⟩ := split
      exact rest before x after split

theorem lengthOffset_le_size (known : (headerFormat h.proto h.subType).isSome) {offset : Nat}
    (carries : lengthOffset h.proto = some offset) : offset ≤ h.size := by
  obtain ⟨proto, name, length, subType⟩ := h
  cases proto with
  | ip4 | udp | ptp | ipfix =>
    cases carries
    exact Nat.zero_le _
  | ip6 =>
    cases carries
    cases subType with
    | none => exact Nat.le_add_right 40 _
    | some subType => simp [headerFormat] at known
  | _ => cases carries

/-- The headers that are still to come, behind those seen: the induction is over
what is left, and the named arguments may be any that filling the headers seen
can leave. -/
theorem setLength_eq_packetFill_iff {N : Nat} {headers : List HeaderData}
    (known : ∀ h ∈ headers, (headerFormat h.proto h.subType).isSome) (seen : List HeaderData)
    (distinct : ((seen ++ headers).map (·.name)).Nodup) (large : sizes (seen ++ headers) ≤ N)
    {namedArgs : Nat → NamedArgs} (filled : ∀ n, Filled n seen (namedArgs n)) :
    (∀ n, N ≤ n → (packetSetLength (baseSizes seen) headers).map (fun (member, offset) =>
        (member, hton16 ((n : ℚ) - offset))) = packetFill (namedArgs n) (sizes seen) headers) ↔
      ∀ before h after, headers = before ++ h :: after → ∀ offset, lengthOffset h.proto = some offset →
        LengthAgrees (seen ++ before) h offset := by
  induction headers generalizing seen namedArgs with
  | nil => simp [packetSetLength, packetFill]
  | cons h headers ih =>
    have fresh : ∀ g ∈ seen, g.name ≠ h.name := by
      intro g member same
      rw [map_append, nodup_append] at distinct
      exact distinct.2.2 g.name (mem_map_of_mem member) h.name (by simp) same
    choose after filledAfter filledList using fun n => packetFill_cons (filled n) fresh headers
    have known' : ∀ g ∈ headers, (headerFormat g.proto g.subType).isSome := fun g member => known g (by simp [member])
    have shift : seen ++ h :: headers = (seen ++ [h]) ++ headers := by simp
    have rest := ih known' (seen ++ [h]) (shift ▸ distinct) (shift ▸ large) filledAfter
    have base : baseSizes (seen ++ [h]) = baseSizes seen + h.baseSize := by simp [baseSizes]
    have room : sizes seen + h.size ≤ N := by
      rw [sizes_append] at large
      simp only [sizes, map_cons, sum_cons] at large ⊢
      omega
    rw [forall_split_cons]
    simp only [filledList, packetSetLength_cons (known h (by simp)), append_nil]
    rw [base] at rest
    simp only [append_assoc, singleton_append] at rest
    cases carries : lengthOffset h.proto with
    | none => simpa using rest
    | some offset =>
      have enough : sizes seen + offset ≤ N := by
        have own := lengthOffset_le_size (known h (by simp)) carries
        omega
      simp only [map_cons, List.cons.injEq, Prod.mk.injEq, true_and, imp_and, forall_and, rest,
        lengthAgrees_iff enough, Option.some.injEq, forall_eq']

/-- The length fields agree for every long enough packet exactly when each of the
headers that have one agrees. -/
theorem setLength_eq_fill_iff (stack : Stack) :
    (∀ length, sizes stack.headers ≤ length → stack.setLength length = stack.fill length) ↔
      ∀ before h after, stack.headers = before ++ h :: after → ∀ offset, lengthOffset h.proto = some offset →
        LengthAgrees before h offset :=
  setLength_eq_packetFill_iff stack.known [] stack.distinct le_rfl filled_nil

/-- Behind an `ip4` header with eight bytes of options `setLength` gives the `udp`
header eight bytes more than `fill`. -/
theorem setLength_ignores_options : ∃ stack,
    createStack [.keyword .ethernet, .table ⟨.ip4, none, some 8, none⟩, .keyword .udp] = some stack ∧
      sizes stack.headers ≤ 100 ∧ stack.setLength 100 = [("ip4", hton16 86), ("udp", hton16 66)] ∧
      stack.fill 100 = [("ip4", hton16 86), ("udp", hton16 58)] ∧ stack.setLength 100 ≠ stack.fill 100 := by
  have seen : (createStack [.keyword .ethernet, .table ⟨.ip4, none, some 8, none⟩, .keyword .udp]).map (fun stack =>
      (decide (sizes stack.headers ≤ 100), stack.setLength 100, stack.fill 100)) =
        some (true, [("ip4", hton16 86), ("udp", hton16 66)], [("ip4", hton16 86), ("udp", hton16 58)]) := by
    decide +kernel
  obtain ⟨stack, made, values⟩ := Option.map_eq_some_iff.mp seen
  simp only [Prod.mk.injEq, decide_eq_true_eq] at values
  obtain ⟨small, set, filled⟩ := values
  refine ⟨stack, made, small, set, filled, ?_⟩
  rw [set, filled]
  decide +kernel

end MoonGen.Packet
