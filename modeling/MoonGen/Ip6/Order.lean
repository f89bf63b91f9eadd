import MoonGen.Ip6.Address

namespace MoonGen

open Memory Bytes

namespace Ip6Addr

/-- The metamethod of `<`. -/
def lt (self other : Ip6Addr) : Bool :=
  let selfLow := bswap 8 (self.uint64 1)
  let selfHigh := bswap 8 (self.uint64 0)
  let otherLow := bswap 8 (other.uint64 1)
  let otherHigh := bswap 8 (other.uint64 0)
  if otherHigh = selfHigh then selfLow < otherLow else selfHigh < otherHigh

/-- Of the bytes in which two addresses differ, the first and the last are in the same
order. -/
def DifferAlike (a b : Ip6Addr) : Prop :=
  ∀ x y x' y', DifferFirst a.bytes b.bytes x y → DifferLast a.bytes b.bytes x' y' → (x < y ↔ x' < y')

/-- The comparison takes its arguments for addresses in network byte order. -/
theorem lt_iff_network (a b : Ip6Addr) : a.lt b = true ↔ a.network < b.network := by
  have low := a.get.uint64_lt (i := 0) (by decide)
  have low' := b.get.uint64_lt (i := 0) (by decide)
  rw [network_eq, network_eq, host_eq, host_eq, lt, ← uint64_get_zero, ← uint64_get_zero, ← uint64_get_one,
    ← uint64_get_one]
  split
  · rw [decide_eq_true_eq]
    omega
  · rw [decide_eq_true_eq]
    omega

theorem network_lt_iff {a b : Ip6Addr} {x y : UInt8} (differ : DifferFirst a.bytes b.bytes x y) :
    a.network < b.network ↔ x < y := by
  have length : a.bytes.reverse.length = b.bytes.reverse.length := by
    rw [List.length_reverse, List.length_reverse, a.size, b.size]
  refine ofLe_lt_iff length ?_
  rw [DifferLast, List.reverse_reverse, List.reverse_reverse]
  exact differ

theorem host_lt_iff {a b : Ip6Addr} {x y : UInt8} (differ : DifferLast a.bytes b.bytes x y) :
    a.host < b.host ↔ x < y := ofLe_lt_iff (a.size.trans b.size.symm) differ

/-- Two addresses are the same or there are bytes that decide. -/
theorem eq_or_differ (a b : Ip6Addr) : a = b ∨
    ∃ x y x' y', DifferFirst a.bytes b.bytes x y ∧ DifferLast a.bytes b.bytes x' y' := by
  by_cases same : a.bytes = b.bytes
  · exact .inl (ext same)
  · have length : a.bytes.length = b.bytes.length := a.size.trans b.size.symm
    obtain ⟨x, y, first⟩ := exists_differFirst length same
    obtain ⟨x', y', last⟩ : ∃ x' y', DifferLast a.bytes b.bytes x' y' :=
      exists_differFirst (by rw [List.length_reverse, List.length_reverse, length])
        fun equal => same (List.reverse_injective equal)
    exact .inr ⟨x, y, x', y', first, last⟩

theorem lt_iff_host_iff (a b : Ip6Addr) : (a.lt b = true ↔ a.host < b.host) ↔ DifferAlike a b := by
  rw [lt_iff_network]
  constructor
  · intro alike x y x' y' first last
    rw [← network_lt_iff first, ← host_lt_iff last, alike]
  · intro alike
    rcases eq_or_differ a b with rfl | ⟨x, y, x', y', first, last⟩
    · exact ⟨fun less => absurd less (lt_irrefl _), fun less => absurd less (lt_irrefl _)⟩
    · rw [network_lt_iff first, host_lt_iff last]
      exact alike x y x' y' first last

/-- Without an overflow a sum is the larger number. -/
theorem host_lt_plus (a : Ip6Addr) {val : Int} (positive : 0 < val) (upper : val < 2 ^ 63)
    (room : a.host + val < 2 ^ 128) : a.host < (a.plus val).host := by
  have sum := (a.host_plus_iff (by omega) upper).mpr (.inl positive.le)
  rw [Int.emod_eq_of_lt (by omega) room] at sum
  omega

/-- `a < b` for addresses in host byte order, and `a < a + v`. -/
theorem ip6_order_iff (a b : Ip6Addr) {val : Int} (positive : 0 < val) (upper : val < 2 ^ 63) :
    ((a.lt b = true ↔ a.host < b.host) ↔ DifferAlike a b) ∧
      (a.host + val < 2 ^ 128 → (a.lt (a.plus val) = true ↔ DifferAlike a (a.plus val))) := by
  refine ⟨lt_iff_host_iff a b, fun room => ?_⟩
  have larger := a.host_lt_plus positive upper room
  rw [← lt_iff_host_iff, iff_true_right larger]

theorem ip6_order_iff_one : ((ofUint64 1 0).lt (ofUint64 2 0) = true ↔ (ofUint64 1 0).host < (ofUint64 2 0).host) ∧
    DifferAlike (ofUint64 1 0) (ofUint64 2 0) ∧ DifferAlike (ofUint64 1 0) ((ofUint64 1 0).plus 1) := by
  have less : (ofUint64 1 0).lt (ofUint64 2 0) = true ∧ (ofUint64 1 0).host < (ofUint64 2 0).host ∧
      (ofUint64 1 0).host + 1 < 2 ^ 128 ∧ (ofUint64 1 0).lt ((ofUint64 1 0).plus 1) = true := by
    decide +kernel
  have order := iff_of_true less.1 less.2.1
  obtain ⟨two, sum⟩ := ip6_order_iff (ofUint64 1 0) (ofUint64 2 0) (show (0 : Int) < 1 by decide) (by decide)
  exact ⟨order, two.mp order, (sum (by exact_mod_cast less.2.2.1)).mp less.2.2.2⟩

/-- The address `::1` is not below `::100`, and `::ff` not below the next one. -/
theorem ip6_order_reversed : (ofUint64 1 0).host < (ofUint64 0x100 0).host ∧
    (ofUint64 1 0).lt (ofUint64 0x100 0) = false ∧ (ofUint64 0xff 0).lt ((ofUint64 0xff 0).plus 1) = false := by
  decide +kernel

end Ip6Addr
end MoonGen
