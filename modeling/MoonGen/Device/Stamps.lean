import Mathlib.Algebra.Order.Group.Nat
import Mathlib.Data.List.Chain

namespace MoonGen

open List

/-- A buffer as far as the receiver looks at it. -/
structure RxBuffer where
  pktLen : UInt32
  udata64 : UInt64
deriving DecidableEq, Repr

/-- One round of the receiver while the program runs: the cycle counter, and then the packets
that the device hands over. -/
structure RxPoll where
  tsc : UInt64
  burst : List RxBuffer
deriving DecidableEq, Repr

/-- The loop over the packets of a burst. -/
def stampBurst (cyclesPerByte : UInt32) (tsc : UInt64) : UInt16 → List RxBuffer → List RxBuffer
  | _, [] => []
  | prevPktSize, pkt :: pkts =>
    { pkt with udata64 := tsc + (prevPktSize.toUInt32 * cyclesPerByte).toUInt64 } ::
      stampBurst cyclesPerByte tsc (pkt.pktLen + 24).toUInt16 pkts

/-- The packets that are received, if there are any before the program ends. -/
def dpdkReceiveWithTimestampsSoftware (cyclesPerByte : UInt32) : List RxPoll → List RxBuffer
  | [] => []
  | poll :: polls =>
    let rxPkts := stampBurst cyclesPerByte poll.tsc 0 poll.burst
    if rxPkts.length > 0 then rxPkts else dpdkReceiveWithTimestampsSoftware cyclesPerByte polls

/-- The bytes that a packet takes on the wire. -/
def RxBuffer.wireSize (pkt : RxBuffer) : Nat := pkt.pktLen.toNat + 24

/-- What the stamp of the packet behind one is away from the start of the burst. -/
def RxBuffer.stampDelay (cyclesPerByte : UInt32) (pkt : RxBuffer) : Nat :=
  pkt.wireSize % 2 ^ 16 * cyclesPerByte.toNat % 2 ^ 32

/-- The packets are stamped one after another, each after the time that the one before takes. -/
def BackToBack (cyclesPerByte : UInt32) (pkts : List RxBuffer) : Prop :=
  pkts.Pairwise (fun p q => p.udata64.toNat < q.udata64.toNat) ∧
    pkts.IsChain fun p q => p.udata64.toNat + p.wireSize * cyclesPerByte.toNat ≤ q.udata64.toNat

/-- The burst that ends the wait. -/
def firstBurst (polls : List RxPoll) : List RxBuffer :=
  ((polls.find? fun poll => 0 < poll.burst.length).map RxPoll.burst).getD []

section Stamps

variable {cyclesPerByte : UInt32} {tsc : UInt64} {pkt : RxBuffer}

theorem stampBurst_length (prev : UInt16) (pkts : List RxBuffer) :
    (stampBurst cyclesPerByte tsc prev pkts).length = pkts.length := by
  induction pkts generalizing prev with
  | nil => rfl
  | cons pkt pkts ih => rw [stampBurst, length_cons, length_cons, ih]

theorem receive_eq (polls : List RxPoll) :
    dpdkReceiveWithTimestampsSoftware cyclesPerByte polls =
      match polls.find? fun poll => 0 < poll.burst.length with
      | none => []
      | some poll => stampBurst cyclesPerByte poll.tsc 0 poll.burst := by
  induction polls with
  | nil => rfl
  | cons poll polls ih =>
    rw [dpdkReceiveWithTimestampsSoftware]
    simp only [stampBurst_length, find?_cons]
    by_cases any : 0 < poll.burst.length
    · rw [if_pos any, decide_eq_true any]
    · rw [if_neg any, decide_eq_false any]
      exact ih

/-- The stamp of the packet behind another one. -/
theorem toNat_stamp (fits : tsc.toNat + pkt.stampDelay cyclesPerByte < 2 ^ 64) :
    (tsc + ((pkt.pktLen + 24).toUInt16.toUInt32 * cyclesPerByte).toUInt64).toNat =
      tsc.toNat + pkt.stampDelay cyclesPerByte := by
  have size : (pkt.pktLen + 24).toUInt16.toUInt32.toNat = pkt.wireSize % 2 ^ 16 := by
    rw [UInt16.toNat_toUInt32, UInt32.toNat_toUInt16, UInt32.toNat_add, RxBuffer.wireSize]
    exact Nat.mod_mod_of_dvd _ (by decide)
  rw [UInt64.toNat_add, UInt32.toNat_toUInt64, UInt32.toNat_mul, size]
  exact Nat.mod_eq_of_lt fits

theorem RxBuffer.stampDelay_le : pkt.stampDelay cyclesPerByte ≤ pkt.wireSize * cyclesPerByte.toNat :=
  (Nat.mod_le _ _).trans (Nat.mul_le_mul_right _ (Nat.mod_le _ _))

/-- A delay is what the packet takes when that fits the words it is computed in. -/
theorem RxBuffer.le_stampDelay_iff (someCycles : 1 ≤ cyclesPerByte.toNat) :
    pkt.wireSize * cyclesPerByte.toNat ≤ pkt.stampDelay cyclesPerByte ↔
      pkt.wireSize < 2 ^ 16 ∧ pkt.wireSize * cyclesPerByte.toNat < 2 ^ 32 := by
  constructor
  · intro long
    have short : pkt.stampDelay cyclesPerByte ≤ pkt.wireSize % 2 ^ 16 * cyclesPerByte.toNat := Nat.mod_le _ _
    have size := Nat.le_of_mul_le_mul_right (long.trans short) someCycles
    have below := Nat.mod_lt pkt.wireSize (show 2 ^ 16 > 0 by decide)
    have delay : pkt.stampDelay cyclesPerByte < 2 ^ 32 := Nat.mod_lt _ (by decide)
    exact ⟨by omega, by omega⟩
  · rintro ⟨size, product⟩
    rw [stampDelay, Nat.mod_eq_of_lt size, Nat.mod_eq_of_lt product]

theorem RxBuffer.wire_pos (someCycles : 1 ≤ cyclesPerByte.toNat) (pkt : RxBuffer) :
    0 < pkt.wireSize * cyclesPerByte.toNat :=
  Nat.mul_pos (by rw [wireSize]; omega) someCycles

theorem stampBurst_cons (pkts : List RxBuffer) :
    stampBurst cyclesPerByte tsc 0 (pkt :: pkts) =
      { pkt with udata64 := tsc } :: stampBurst cyclesPerByte tsc (pkt.pktLen + 24).toUInt16 pkts := by
  have unchanged : tsc + ((0 : UInt16).toUInt32 * cyclesPerByte).toUInt64 = tsc := by simp
  rw [stampBurst, unchanged]

/-- Only the first packet of a burst starts the clock anew, so that the second stamp says how
long the first packet takes, and the third one not how long the first two do. -/
theorem backToBack_stampBurst_iff (someCycles : 1 ≤ cyclesPerByte.toNat) {pkts : List RxBuffer}
    (fits : ∀ pkt ∈ pkts, tsc.toNat + pkt.stampDelay cyclesPerByte < 2 ^ 64) :
    BackToBack cyclesPerByte (stampBurst cyclesPerByte tsc 0 pkts) ↔
      pkts.length ≤ 1 ∨ ∃ p q, pkts = [p, q] ∧ p.wireSize < 2 ^ 16 ∧ p.wireSize * cyclesPerByte.toNat < 2 ^ 32 := by
  match pkts with
  | [] => simp [BackToBack, stampBurst]
  | [p] => simp [BackToBack, stampBurst]
  | [p, q] =>
    have second := toNat_stamp (fits p (by simp))
    have positive := p.wire_pos someCycles
    have enough := @RxBuffer.le_stampDelay_iff _ p someCycles
    rw [stampBurst_cons, stampBurst, stampBurst]
    simp only [BackToBack, pairwise_pair, isChain_pair, second, RxBuffer.wireSize] at *
    constructor
    · rintro ⟨-, apart⟩
      exact .inr ⟨p, q, rfl, enough.mp (by omega)⟩
    · rintro (short | ⟨p', q', same, small⟩)
      · exact absurd short (by simp)
      · cases same
        have long := enough.mpr small
        exact ⟨by omega, by omega⟩
  | p :: q :: r :: pkts =>
    have second := toNat_stamp (fits p (by simp))
    have third := toNat_stamp (fits q (by simp))
    have positive := p.wire_pos someCycles
    have least := @RxBuffer.stampDelay_le cyclesPerByte q
    refine ⟨fun ⟨_, chain⟩ => ?_, ?_⟩
    · rw [stampBurst_cons, stampBurst, stampBurst] at chain
      obtain ⟨first, chain⟩ := isChain_cons_cons.mp chain
      obtain ⟨next, -⟩ := isChain_cons_cons.mp chain
      simp only [second, third, RxBuffer.wireSize] at *
      omega
    · rintro (short | ⟨p', q', same, -⟩)
      · exact absurd short (by simp)
      · cases same

/-- The stamps are those of packets that arrive back to back exactly for one packet, and for two
if the time that the first one takes fits the words it is computed in. -/
theorem dpdkReceive_backToBack_iff (cyclesPerByte : UInt32) (someCycles : 1 ≤ cyclesPerByte.toNat)
    (polls : List RxPoll)
    (fits : ∀ poll ∈ polls, ∀ pkt ∈ poll.burst, poll.tsc.toNat + pkt.stampDelay cyclesPerByte < 2 ^ 64) :
    BackToBack cyclesPerByte (dpdkReceiveWithTimestampsSoftware cyclesPerByte polls) ↔
      (firstBurst polls).length ≤ 1 ∨
        ∃ p q, firstBurst polls = [p, q] ∧ p.wireSize < 2 ^ 16 ∧ p.wireSize * cyclesPerByte.toNat < 2 ^ 32 := by
  rw [receive_eq, firstBurst]
  cases found : polls.find? fun poll => 0 < poll.burst.length with
  | none => simp [BackToBack]
  | some poll => exact backToBack_stampBurst_iff someCycles (fits poll (mem_of_find?_eq_some found))

end Stamps

theorem dpdkReceive_backToBack_two :
    BackToBack 250 (dpdkReceiveWithTimestampsSoftware 250 [⟨7, []⟩, ⟨1000, [⟨60, 0⟩, ⟨1514, 0⟩]⟩]) :=
  (dpdkReceive_backToBack_iff 250 (by decide) [⟨7, []⟩, ⟨1000, [⟨60, 0⟩, ⟨1514, 0⟩]⟩] (by decide)).mpr
    (.inr ⟨⟨60, 0⟩, ⟨1514, 0⟩, rfl, by decide, by decide⟩)

/-- Three packets of one size: the last two have the same stamp. -/
theorem dpdkReceive_three_packets :
    dpdkReceiveWithTimestampsSoftware 250 [⟨1000, [⟨60, 0⟩, ⟨60, 0⟩, ⟨60, 0⟩]⟩] =
        [⟨60, 1000⟩, ⟨60, 22000⟩, ⟨60, 22000⟩] ∧
      ¬BackToBack 250 (dpdkReceiveWithTimestampsSoftware 250 [⟨1000, [⟨60, 0⟩, ⟨60, 0⟩, ⟨60, 0⟩]⟩]) := by
  refine ⟨by decide, fun ⟨growing, _⟩ => ?_⟩
  revert growing
  decide

end MoonGen
