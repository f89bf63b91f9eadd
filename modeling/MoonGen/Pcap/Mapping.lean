import MoonGen.Pcap.RoundTrip
import MoonGen.Sniff.Mscap

namespace MoonGen

/-- Each record, with its header, fits twice the mapping when its turn comes. -/
def FitsDoubled (size offset : Nat) : (lens : List Nat) → Prop
  | [] => True
  | len :: lens =>
    offset + (len + 16) ≤ size * 2 ∧
      FitsDoubled (if size ≤ offset + (len + 16) then size * 2 else size) (offset + (len + 16)) lens

section
variable {D : Type}

theorem PcapWriter.length_makeRoom (w : PcapWriter D) (len : Nat) : (w.makeRoom len).mapping.length =
    if w.mapping.length ≤ w.offset + (len + 16) then w.mapping.length * 2 else w.mapping.length := by
  rw [makeRoom, Nat.add_assoc]
  split
  · rw [resize, List.length_append, List.length_replicate]
    omega
  · rfl

variable [Double D]

theorem PcapWriter.writes_isSome_iff {w : PcapWriter D} {content : List UInt8} (wrote : w.Wrote content)
    (calls : List (WriteCall D)) :
    (calls.foldlM PcapWriter.write w).isSome ↔
      FitsDoubled w.mapping.length w.offset (calls.map fun c => c.data.length) := by
  induction calls generalizing w content with
  | nil => exact iff_of_true rfl trivial
  | cons c calls ih =>
    rw [List.foldlM_cons, List.map_cons, FitsDoubled]
    rcases PcapWriter.write_cases wrote c with ⟨fits, after, run, wrote, -, offset, length⟩ | ⟨past, run⟩
    · rw [run, ← w.length_makeRoom, ← length, ← offset, and_iff_right (by rw [offset]; exact fits)]
      exact ih wrote
    · rw [run]
      exact iff_of_false (by simp) fun fits => absurd fits.1 (Nat.not_le.mpr past)

end

/-- A pcap writer stores within its mapping exactly when each record fits twice the
mapping that it finds, since one doubling is all that a write makes. A writer of
mscap files always does, and its file comes back unless it is empty. -/
theorem writers_inside_iff {D : Type} [Double D] (startTime : D) {initialFileSize : Nat}
    (header : pcapHdrSize ≤ initialFileSize) (calls : List (WriteCall D)) (ms : List Mscap) (beyond : Memory) :
    ∃ w, ms.foldlM PcapWriter.writeMscap (newMscapWriter initialFileSize startTime) = some w ∧
      ((((newWriter initialFileSize startTime).bind fun w => calls.foldlM PcapWriter.write w).isSome ∧
          readBack w.close beyond = some ms) ↔
        FitsDoubled initialFileSize pcapHdrSize (calls.map fun c => c.data.length) ∧ ms ≠ []) := by
  have start : (newMscapWriter initialFileSize startTime).Wrote [] := ⟨rfl, Nat.zero_le _⟩
  have large : mscapSize ≤ (newMscapWriter initialFileSize startTime).mapping.length := by
    rw [newMscapWriter, List.length_replicate]
    exact Nat.le_trans (by decide) header
  obtain ⟨w, runs, wrote⟩ := PcapWriter.writesMscap_spec start ms large
  obtain ⟨first, made, behind, offset, length, -⟩ := newWriter_spec header startTime
  have file : w.close = ms.flatMap Mscap.bytes := wrote.front
  refine ⟨w, runs, ?_⟩
  rw [made, Option.bind_some, PcapWriter.writes_isSome_iff behind, offset, length, file, readBack_eq_iff]

theorem writers_inside_small : ∃ w,
    [(⟨7, 1⟩ : Mscap), ⟨8, 2⟩].foldlM PcapWriter.writeMscap (newMscapWriter 40 (Lua.Number.ofNat 1000)) = some w ∧
      ((newWriter 40 (Lua.Number.ofNat 1000)).bind fun w => twoWrites.foldlM PcapWriter.write w).isSome ∧
      readBack w.close (fun _ => 255) = some [⟨7, 1⟩, ⟨8, 2⟩] := by
  obtain ⟨w, runs, inside⟩ :=
    writers_inside_iff (Lua.Number.ofNat 1000) (by decide : pcapHdrSize ≤ 40) twoWrites [⟨7, 1⟩, ⟨8, 2⟩]
    fun _ => 255
  have fits : FitsDoubled 40 pcapHdrSize (twoWrites.map fun c => c.data.length) := by
    simp [FitsDoubled, twoWrites, pcapHdrSize]
  exact ⟨w, runs, inside.mpr ⟨fits, by simp⟩⟩

/-- Two doublings would be needed for a packet of 60 bytes in a file of 24. -/
theorem writers_inside_past : pcapHdrSize ≤ 24 ∧
    ((newWriter 24 (Lua.Number.ofNat 0)).bind fun w =>
      [⟨.ofNat 0, List.replicate 60 7, none⟩].foldlM PcapWriter.write w) = none := by
  decide +kernel

end MoonGen
