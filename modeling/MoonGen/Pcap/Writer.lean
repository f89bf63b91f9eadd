import MoonGen.Pcap.Records

namespace MoonGen

open List

theorem storeBytes_of_fit {mapping bytes : List UInt8} {dst : Nat} (fit : dst + bytes.length ≤ mapping.length) :
    ∃ after, storeBytes mapping dst bytes = some after ∧ after.length = mapping.length ∧
      after.take (dst + bytes.length) = mapping.take dst ++ bytes := by
  refine ⟨_, if_pos fit, ?_, ?_⟩
  · simp only [length_append, length_take, length_drop]
    omega
  · have front : (mapping.take dst ++ bytes).length = dst + bytes.length := by
      rw [length_append, length_take]
      omega
    rw [← append_assoc, ← front, take_left]

/-- A store behind another place and then one up to it are one store. -/
theorem storeBytes_bind (mapping : List UInt8) (dst : Nat) (front back : List UInt8) :
    ((storeBytes mapping (dst + front.length) back).bind fun after => storeBytes after dst front) =
      storeBytes mapping dst (front ++ back) := by
  by_cases fit : dst + front.length + back.length ≤ mapping.length
  · obtain ⟨after, store, same, taken⟩ := storeBytes_of_fit fit
    have before : after.take dst = mapping.take dst := by
      have shorter := congrArg (List.take dst) taken
      rw [take_take, take_append_of_le_length (by rw [length_take]; omega), take_take] at shorter
      rwa [Nat.min_eq_left (by omega), Nat.min_eq_left (by omega)] at shorter
    rw [storeBytes, if_pos fit] at store
    have behind : after.drop (dst + front.length) = back ++ mapping.drop (dst + front.length + back.length) := by
      have place : (mapping.take (dst + front.length)).length = dst + front.length := by
        rw [length_take]
        omega
      rw [← Option.some.inj store, drop_append_of_le_length place.ge, drop_of_length_le place.le, nil_append]
    rw [storeBytes, if_pos fit, store, Option.bind_some, storeBytes, if_pos (by omega), storeBytes,
      if_pos (by rw [length_append]; omega), before, behind, length_append, append_assoc, Nat.add_assoc]
  · rw [storeBytes, if_neg fit, Option.bind_none, storeBytes, if_neg (by rw [length_append]; omega)]

theorem length_pcapHdr : pcapHdr.length = pcapHdrSize := rfl

namespace PcapWriter

variable {D : Type} {w : PcapWriter D} {content : List UInt8}

/-- The file up to the offset of a writer, which lies in its mapping. -/
structure Wrote (w : PcapWriter D) (content : List UInt8) : Prop where
  front : w.mapping.take w.offset = content
  offset : w.offset ≤ w.mapping.length

/-- A writer with a mapping that may have grown, at the same place of the file. -/
structure Grew (w after : PcapWriter D) (content : List UInt8) : Prop where
  wrote : after.Wrote content
  offset : after.offset = w.offset
  startTime : after.startTime = w.startTime
  grown : w.mapping.length ≤ after.mapping.length

theorem Wrote.resize (wrote : w.Wrote content) (size : Nat) :
    w.Grew (w.resize size) content ∧ (w.resize size).mapping.length = max w.mapping.length size := by
  obtain ⟨front, offset⟩ := wrote
  have length : (w.resize size).mapping.length = max w.mapping.length size := by
    simp only [PcapWriter.resize, length_append, length_replicate]
    omega
  refine ⟨⟨⟨?_, ?_⟩, rfl, rfl, by omega⟩, length⟩
  · simpa [PcapWriter.resize, take_append_of_le_length offset] using front
  · exact offset.trans (by omega)

/-- One doubling at most is made, which is enough for what fits twice the mapping. -/
theorem Wrote.grow (wrote : w.Wrote content) (n : Nat) :
    ∃ after, (if w.mapping.length ≤ w.offset + n then w.resize (w.mapping.length * 2) else w) = after ∧
      w.Grew after content ∧
      (after.offset + n ≤ after.mapping.length ↔ w.offset + n ≤ w.mapping.length * 2) := by
  split
  · obtain ⟨grew, length⟩ := wrote.resize (w.mapping.length * 2)
    refine ⟨_, rfl, grew, ?_⟩
    rw [grew.offset, length]
    omega
  · exact ⟨w, rfl, ⟨wrote, rfl, rfl, Nat.le_refl _⟩, by omega⟩

/-- A store behind the file so far, which moves the offset. -/
theorem Wrote.store (wrote : w.Wrote content) {bytes : List UInt8} (fit : w.offset + bytes.length ≤ w.mapping.length) :
    ∃ mapping, storeBytes w.mapping w.offset bytes = some mapping ∧ mapping.length = w.mapping.length ∧
      Wrote { w with mapping, offset := w.offset + bytes.length } (content ++ bytes) := by
  obtain ⟨mapping, store, same, taken⟩ := storeBytes_of_fit fit
  refine ⟨mapping, store, same, ?_, ?_⟩
  · rw [← wrote.front]
    exact taken
  · exact fit.trans same.ge

theorem le_length_makeRoom (w : PcapWriter D) (len : Nat) : w.mapping.length ≤ (w.makeRoom len).mapping.length := by
  unfold makeRoom
  split
  · rw [resize, length_append]
    exact Nat.le_add_right _ _
  · exact Nat.le_refl _

variable [Double D]

/-- The outcomes of a write: the record is stored when it fits twice the mapping,
and goes past the end of the mapping otherwise. -/
theorem write_cases (wrote : w.Wrote content) (c : WriteCall D) :
    (w.offset + (c.data.length + 16) ≤ w.mapping.length * 2 ∧ ∃ after, w.write c = some after ∧
      after.Wrote (content ++ (c.record w.startTime).bytes) ∧ after.startTime = w.startTime ∧
      after.offset = w.offset + (c.data.length + 16) ∧
      after.mapping.length = (w.makeRoom c.data.length).mapping.length) ∨
    (w.mapping.length * 2 < w.offset + (c.data.length + 16) ∧ w.write c = none) := by
  obtain ⟨grown, made, grew, fit⟩ := wrote.grow (c.data.length + 16)
  have room : w.makeRoom c.data.length = grown := made
  have length : (c.record w.startTime).bytes.length = c.data.length + 16 := (c.record w.startTime).length_bytes
  rw [write, room, grew.startTime]
  rcases Nat.lt_or_ge (w.mapping.length * 2) (w.offset + (c.data.length + 16)) with past | fits
  · refine .inr ⟨past, ?_⟩
    rw [storeBytes, if_neg, Option.map_none]
    rw [length, fit]
    omega
  · have inside : grown.offset + (c.record w.startTime).bytes.length ≤ grown.mapping.length := by
      rw [length]
      exact fit.mpr fits
    obtain ⟨mapping, store, same, wrote⟩ := grew.wrote.store inside
    rw [length] at wrote
    exact .inl ⟨fits, ⟨mapping, grown.offset + (c.data.length + 16), w.startTime⟩, by rw [store, Option.map_some]; rfl,
      ⟨wrote.front, wrote.offset⟩, rfl, by rw [grew.offset], same⟩

end PcapWriter

/-- A new writer stands behind the header of its file. -/
theorem newWriter_spec {D : Type} [Double D] {initialFileSize : Nat}
    (header : pcapHdrSize ≤ initialFileSize) (startTime : D) :
    ∃ w, newWriter initialFileSize startTime = some w ∧ w.Wrote pcapHdr ∧ w.offset = pcapHdrSize ∧
      w.mapping.length = initialFileSize ∧ w.startTime = startTime := by
  have fit : 0 + pcapHdr.length ≤ (List.replicate initialFileSize (0 : UInt8)).length := by
    rw [Nat.zero_add, length_replicate]
    exact header
  obtain ⟨mapping, store, same, taken⟩ := storeBytes_of_fit fit
  rw [length_replicate] at same
  rw [newWriter, store]
  exact ⟨_, rfl, ⟨by simpa [length_pcapHdr] using taken, header.trans same.ge⟩, rfl, same, rfl⟩

end MoonGen
