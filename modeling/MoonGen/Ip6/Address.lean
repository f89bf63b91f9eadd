import MoonGen.Lib.Bytes

namespace MoonGen

open Memory Bytes List

/-- `union ip6_address`. -/
structure Ip6Addr where
  bytes : List UInt8
  size : bytes.length = 16

namespace Ip6Addr

def uint32 (a : Ip6Addr) (i : Nat) : Nat := ofLe ((a.bytes.drop (4 * i)).take 4)

def uint64 (a : Ip6Addr) (i : Nat) : Nat := ofLe ((a.bytes.drop (8 * i)).take 8)

def ofUint32 (w0 w1 w2 w3 : Nat) : Ip6Addr := ⟨leBytes 4 w0 ++ leBytes 4 w1 ++ leBytes 4 w2 ++ leBytes 4 w3, by simp⟩

def ofUint64 (w0 w1 : Nat) : Ip6Addr := ⟨leBytes 8 w0 ++ leBytes 8 w1, by simp⟩

def get (a : Ip6Addr) : Ip6Addr :=
  ofUint32 (bswap 4 (a.uint32 3)) (bswap 4 (a.uint32 2)) (bswap 4 (a.uint32 1)) (bswap 4 (a.uint32 0))

/-- The address that `set` stores. -/
def set (addr : Ip6Addr) : Ip6Addr :=
  ofUint32 (bswap 4 (addr.uint32 3)) (bswap 4 (addr.uint32 2)) (bswap 4 (addr.uint32 1)) (bswap 4 (addr.uint32 0))

/-- The conversion to `uint64_t`, by which every operation and every comparison with a
word goes. -/
def u64 (x : Int) : Nat := (x % 2 ^ 64).toNat

/-- The sum of an address in two words and a number, with the carry and the borrow
that the source infers. -/
def addWords (low high : Nat) (val : Int) : Nat × Nat :=
  let sum := u64 (low + val)
  if sum < u64 val ∧ val > 0 then (sum, u64 (high + 1))
  else if sum > u64 (-val) ∧ val < 0 then (sum, u64 (high - 1))
  else (sum, high)

/-- The metamethod of `+`, on an address in host byte order. -/
def plus (a : Ip6Addr) (val : Int) : Ip6Addr :=
  ofUint64 (addWords (a.uint64 0) (a.uint64 1) val).1 (addWords (a.uint64 0) (a.uint64 1) val).2

/-- The metamethod of `-`. -/
def minus (a : Ip6Addr) (val : Int) : Ip6Addr := a.plus (-val)

/-- The sum in place, on an address in network byte order. -/
def add (a : Ip6Addr) (val : Int) : Ip6Addr :=
  let words := addWords (bswap 8 (a.uint64 1)) (bswap 8 (a.uint64 0)) val
  ofUint64 (bswap 8 words.2) (bswap 8 words.1)

/-- The address as a number in host byte order. -/
def host (a : Ip6Addr) : Nat := ofLe a.bytes

/-- The address as a number in network byte order. -/
def network (a : Ip6Addr) : Nat := ofLe a.bytes.reverse

theorem u64_eq (x : Int) : (u64 x : Int) = x % 2 ^ 64 := Int.toNat_of_nonneg (Int.emod_nonneg x (by decide))

theorem u64_lt (x : Int) : u64 x < 2 ^ 64 := by
  unfold u64
  omega

/-- Two words are a sum when the carry into the high word is that of the low one. -/
theorem words_eq_iff {x carry : Int} (high : Nat) (guessed : -1 ≤ carry ∧ carry ≤ 1)
    (real : -1 ≤ x / 2 ^ 64 ∧ x / 2 ^ 64 ≤ 1) :
    ((u64 x + 2 ^ 64 * u64 (high + carry) : Nat) : Int) = (x + 2 ^ 64 * high) % 2 ^ 128 ↔ carry = x / 2 ^ 64 := by
  have digits (z : Int) : z % 2 ^ 128 = z % 2 ^ 64 + 2 ^ 64 * (z / 2 ^ 64 % 2 ^ 64) := by omega
  rw [digits, Int.add_mul_emod_self_left, Int.add_mul_ediv_left _ _ (by decide), Int.natCast_add, Int.natCast_mul,
    u64_eq, u64_eq]
  omega

theorem addWords_eq_iff {low high : Nat} {val : Int} (lowWord : low < 2 ^ 64) (highWord : high < 2 ^ 64)
    (lower : -2 ^ 63 < val) (upper : val < 2 ^ 63) :
    (((addWords low high val).1 + 2 ^ 64 * (addWords low high val).2 : Nat) : Int) =
        (low + 2 ^ 64 * high + val) % 2 ^ 128 ↔ 0 ≤ val ∨ low ≤ 2 * -val := by
  have order : (low : Int) + 2 ^ 64 * high + val = low + val + 2 ^ 64 * high := by omega
  have real : -1 ≤ ((low : Int) + val) / 2 ^ 64 ∧ ((low : Int) + val) / 2 ^ 64 ≤ 1 := by omega
  have sum := u64_eq (low + val)
  have plus := u64_eq val
  have minus := u64_eq (-val)
  rw [order]
  unfold addWords
  dsimp only
  split
  · rw [words_eq_iff high (by decide) real]
    omega
  · split
    · have carried := words_eq_iff high (show -1 ≤ (-1 : Int) ∧ (-1 : Int) ≤ 1 by decide) real
      rw [← sub_eq_add_neg] at carried
      rw [carried]
      omega
    · have kept : u64 (high + 0) = high := by
        unfold u64
        omega
      have carried := words_eq_iff high (show -1 ≤ (0 : Int) ∧ (0 : Int) ≤ 1 by decide) real
      rw [kept] at carried
      rw [carried]
      omega

theorem addWords_lt (low : Nat) {high : Nat} (highWord : high < 2 ^ 64) (val : Int) :
    (addWords low high val).1 < 2 ^ 64 ∧ (addWords low high val).2 < 2 ^ 64 := by
  simp only [addWords]
  split
  · exact ⟨u64_lt _, u64_lt (high + 1)⟩
  · split
    · exact ⟨u64_lt _, u64_lt (high - 1)⟩
    · exact ⟨u64_lt _, highWord⟩

theorem ext {a b : Ip6Addr} (same : a.bytes = b.bytes) : a = b := by
  cases a
  cases b
  cases same
  rfl

theorem host_inj {a b : Ip6Addr} (same : a.host = b.host) : a = b :=
  ext (ofLe_injective (a.size.trans b.size.symm) same)

variable (a : Ip6Addr)

theorem length_slice {n k : Nat} (inside : n + k ≤ 16) : ((a.bytes.drop n).take k).length = k := by
  have size := a.size
  rw [length_take, length_drop]
  omega

theorem uint64_lt {i : Nat} (index : i < 2) : a.uint64 i < 2 ^ 64 := by
  have bound := ofLe_lt ((a.bytes.drop (8 * i)).take 8)
  rwa [a.length_slice (by omega)] at bound

theorem bytes_eq : a.bytes = (a.bytes.drop 0).take 8 ++ (a.bytes.drop 8).take 8 := by
  have size := a.size
  have rest : (a.bytes.drop 8).take 8 = a.bytes.drop 8 := take_of_length_le (by rw [length_drop]; omega)
  rw [rest, drop_zero, take_append_drop]

theorem host_eq : a.host = a.uint64 0 + 2 ^ 64 * a.uint64 1 := by
  rw [host, a.bytes_eq, ofLe_append, a.length_slice (by omega)]
  rfl

theorem host_ofUint64 {w0 w1 : Nat} (first : w0 < 2 ^ 64) (second : w1 < 2 ^ 64) :
    (ofUint64 w0 w1).host = w0 + 2 ^ 64 * w1 := by
  have word : 256 ^ 8 = 2 ^ 64 := by decide
  rw [host, ofUint64, ofLe_append, ofLe_leBytes, ofLe_leBytes, length_leBytes, word, Nat.mod_eq_of_lt first,
    Nat.mod_eq_of_lt second]

theorem bswap_uint64 {i : Nat} (index : i < 2) :
    bswap 8 (a.uint64 i) = ofLe ((a.bytes.drop (8 * i)).take 8).reverse := by
  rw [bswap, uint64, leBytes_ofLe_of_length (a.length_slice (by omega))]

theorem leBytes_bswap_uint32 {i : Nat} (index : i < 4) :
    leBytes 4 (bswap 4 (a.uint32 i)) = ((a.bytes.drop (4 * i)).take 4).reverse := by
  rw [leBytes_bswap, uint32, leBytes_ofLe_of_length (a.length_slice (by omega))]

/-- `get` and `set` turn the bytes round. -/
theorem bytes_get : a.get.bytes = a.bytes.reverse := by
  have size := a.size
  have last : (a.bytes.drop 12).take 4 = a.bytes.drop 12 := take_of_length_le (by rw [length_drop]; omega)
  have split (n : Nat) : (a.bytes.drop n).take 4 ++ a.bytes.drop (n + 4) = a.bytes.drop n := by
    rw [← drop_drop, take_append_drop]
  have whole : (a.bytes.drop 0).take 4 ++ ((a.bytes.drop 4).take 4 ++ ((a.bytes.drop 8).take 4 ++
      (a.bytes.drop 12).take 4)) = a.bytes := by
    rw [last, split 8, split 4, split 0, drop_zero]
  change leBytes 4 _ ++ leBytes 4 _ ++ leBytes 4 _ ++ leBytes 4 _ = _
  rw [leBytes_bswap_uint32 a (by omega), leBytes_bswap_uint32 a (by omega), leBytes_bswap_uint32 a (by omega),
    leBytes_bswap_uint32 a (by omega), ← reverse_append, ← reverse_append, ← reverse_append]
  exact congrArg List.reverse whole

theorem bytes_set (addr : Ip6Addr) : (set addr).bytes = addr.bytes.reverse := bytes_get addr

theorem network_eq : a.network = a.get.host := by
  rw [network, host, bytes_get]

theorem network_set (addr : Ip6Addr) : (set addr).network = addr.host := by
  rw [network, host, bytes_set, reverse_reverse]

theorem uint64_get_zero : a.get.uint64 0 = bswap 8 (a.uint64 1) := by
  have last : (a.bytes.drop 8).take 8 = a.bytes.drop 8 := take_of_length_le (by rw [length_drop, a.size])
  rw [bswap_uint64 a (by omega), uint64, bytes_get, drop_zero, take_reverse, a.size]
  exact congrArg (fun xs => ofLe xs.reverse) last.symm

theorem uint64_get_one : a.get.uint64 1 = bswap 8 (a.uint64 0) := by
  rw [bswap_uint64 a (by omega), uint64, bytes_get, drop_reverse, a.size]
  exact congrArg ofLe (take_of_length_le (by rw [length_reverse, length_take, a.size]; decide))

/-- The sum in place is the sum of the address in host byte order. -/
theorem set_get_plus (val : Int) : set (a.get.plus val) = a.add val := by
  refine ext ?_
  rw [bytes_set, plus, add, a.uint64_get_zero, a.uint64_get_one, ofUint64, ofUint64]
  dsimp only
  rw [reverse_append, leBytes_bswap, leBytes_bswap]

/-- A sum is right unless it borrows from the high word without need. -/
theorem host_plus_iff {val : Int} (lower : -2 ^ 63 < val) (upper : val < 2 ^ 63) :
    ((a.plus val).host : Int) = (a.host + val) % 2 ^ 128 ↔ 0 ≤ val ∨ (a.host % 2 ^ 64 : Nat) ≤ 2 * -val := by
  have first := a.uint64_lt (i := 0) (by decide)
  have second := a.uint64_lt (i := 1) (by decide)
  have words := addWords_lt (a.uint64 0) second val
  have low : a.host % 2 ^ 64 = a.uint64 0 := by
    rw [host_eq]
    omega
  rw [plus, host_ofUint64 words.1 words.2, low, ← addWords_eq_iff first second lower upper, host_eq]
  push_cast
  rfl

theorem host_lt : a.host < 2 ^ 128 := by
  have bound := ofLe_lt a.bytes
  rwa [a.size] at bound

/-- A number is taken off again modulo `M`. -/
theorem sub_emod_eq_iff {p h v M : Int} (left : 0 ≤ p ∧ p < M) (right : 0 ≤ h ∧ h < M) :
    (p + -v) % M = h ↔ p = (h + v) % M := by
  constructor
  · intro same
    rw [← same, Int.emod_add_emod, Int.neg_add_cancel_right, Int.emod_eq_of_lt left.1 left.2]
  · intro same
    rw [same, Int.emod_add_emod, Int.add_neg_cancel_right, Int.emod_eq_of_lt right.1 right.2]

/-- Taking a number off again gives the address back exactly when neither sum borrows
without need. -/
theorem minus_plus_iff {val : Int} (lower : -2 ^ 63 < val) (upper : val < 2 ^ 63) :
    (a.plus val).minus val = a ↔ (val < 0 → (a.host % 2 ^ 64 : Nat) ≤ 2 * -val) ∧
      (0 < val → (a.host + val) % 2 ^ 64 ≤ 2 * val) := by
  have same : (a.plus val).minus val = a ↔ (((a.plus val).plus (-val)).host : Int) = a.host := by
    rw [Int.natCast_inj]
    exact ⟨congrArg host, host_inj⟩
  have start : (0 : Int) ≤ a.host ∧ (a.host : Int) < 2 ^ 128 := ⟨Int.natCast_nonneg _, by exact_mod_cast a.host_lt⟩
  have between : (0 : Int) ≤ (a.plus val).host ∧ ((a.plus val).host : Int) < 2 ^ 128 :=
    ⟨Int.natCast_nonneg _, by exact_mod_cast (a.plus val).host_lt⟩
  have there := a.host_plus_iff lower upper
  have back := (a.plus val).host_plus_iff (show -2 ^ 63 < -val by omega) (by omega)
  rw [same]
  rcases lt_or_ge val 0 with negative | positive
  · -- the sum back does not borrow
    rw [back.mpr (.inl (by omega)), sub_emod_eq_iff between start, there, or_iff_right (not_le.mpr negative)]
    exact ⟨fun need => ⟨fun _ => need, fun more => absurd more (not_lt.mpr negative.le)⟩, fun need => need.1 negative⟩
  · -- the first sum does not borrow
    have right := there.mpr (.inl positive)
    have home := (sub_emod_eq_iff between start).mpr right
    have low : (((a.plus val).host % 2 ^ 64 : Nat) : Int) = (a.host + val) % 2 ^ 64 := by
      rw [Int.natCast_mod, right]
      exact Int.emod_emod_of_dvd _ (by decide)
    rw [home, low, neg_neg] at back
    rw [back]
    refine ⟨fun need => ⟨fun less => absurd less (not_lt.mpr positive), fun more => ?_⟩, fun need => ?_⟩
    · exact need.resolve_left (by omega)
    · exact positive.eq_or_lt.imp (fun zero => by omega) need.2

/-- `a + v`, `add`, and `(a + v) - v` for an address and a number below 2^63. -/
theorem ip6_add_iff {val : Int} (lower : -2 ^ 63 < val) (upper : val < 2 ^ 63) :
    (((a.plus val).host : Int) = (a.host + val) % 2 ^ 128 ↔ 0 ≤ val ∨ (a.host % 2 ^ 64 : Nat) ≤ 2 * -val) ∧
      (((a.add val).network : Int) = (a.network + val) % 2 ^ 128 ↔
        0 ≤ val ∨ (a.network % 2 ^ 64 : Nat) ≤ 2 * -val) ∧
      set (a.get.plus val) = a.add val ∧
      ((a.plus val).minus val = a ↔ (val < 0 → (a.host % 2 ^ 64 : Nat) ≤ 2 * -val) ∧
        (0 < val → (a.host + val) % 2 ^ 64 ≤ 2 * val)) := by
  refine ⟨a.host_plus_iff lower upper, ?_, a.set_get_plus val, a.minus_plus_iff lower upper⟩
  rw [← set_get_plus, network_set, network_eq]
  exact a.get.host_plus_iff lower upper

theorem ip6_add_iff_one : (((ofUint64 1 0).plus (-1)).host : Int) = ((ofUint64 1 0).host + -1) % 2 ^ 128 ∧
    ((ofUint64 1 0).plus (-1)).minus (-1) = ofUint64 1 0 := by
  obtain ⟨sum, _, _, back⟩ := (ofUint64 1 0).ip6_add_iff (show -2 ^ 63 < -1 by decide) (by decide)
  exact ⟨sum.mpr (.inr (by decide +kernel)), back.mpr ⟨fun _ => by decide +kernel, fun positive => by contradiction⟩⟩

/-- One less than 100 borrows from the high word. -/
theorem ip6_needless_borrow : (ofUint64 100 0).host = 100 ∧
    ((ofUint64 100 0).plus (-1)).host = 99 + 2 ^ 64 * (2 ^ 64 - 1) := by
  decide +kernel

end Ip6Addr
end MoonGen
