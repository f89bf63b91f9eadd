import MoonGen.Pcap.Writer
import MoonGen.Sniff.ArrMatch

namespace MoonGen

open List

/-- `MSCAP_SIZE`, without the padding behind a `struct mscap`. -/
def mscapSize : Nat := 12

/-- `newWriter` of mscap files. The writer has the fields of a pcap writer, and
`resize` and `close` are the same. -/
def newMscapWriter {D : Type} (initialFileSize : Nat) (startTime : D) : PcapWriter D where
  mapping := List.replicate initialFileSize 0
  offset := 0
  startTime := startTime

/-- `writer:write` of mscap files, with one store for each field. -/
def PcapWriter.writeMscap {D : Type} (w : PcapWriter D) (m : Mscap) : Option (PcapWriter D) := do
  let w := if w.mapping.length ≤ w.offset + mscapSize then w.resize (w.mapping.length * 2) else w
  let mapping ← storeBytes w.mapping (w.offset + 8) (Memory.leBytes 4 m.identification.toNat)
  let mapping ← storeBytes mapping w.offset (Memory.leBytes 8 m.timestamp.toNat)
  some { w with mapping, offset := w.offset + mscapSize }

/-- `newReader`: the size of the mapping. An empty file cannot be mapped, and the
failure of `mmap` is fatal. -/
def newMscapReader (file : List UInt8) : Option Nat :=
  if file.length = 0 then none else some file.length

/-- `readSingle` of mscap files: the record at the offset, or nil at the end. -/
def readMscap (mem : Memory) (size offset : Nat) : Option Mscap :=
  let fileRemaining : Int := size - offset
  if fileRemaining < mscapSize then none
  else some ⟨mem.u64 offset, mem.u32 (offset + 8)⟩

/-- What `readSingle` returns before nil. The result is `none` when the fuel does
not last until then. -/
def readMscaps (mem : Memory) (size : Nat) : (fuel offset : Nat) → Option (List Mscap)
  | 0, _ => none
  | fuel + 1, offset =>
    match readMscap mem size offset with
    | none => some []
    | some m => (readMscaps mem size fuel (offset + mscapSize)).map (m :: ·)

/-- A new reader of a file that is called until it returns nil. -/
def readBack (file : List UInt8) (beyond : Memory) : Option (List Mscap) :=
  (newMscapReader file).bind fun size => readMscaps (.ofFile file beyond) size (size + 1) 0

def Mscap.bytes (m : Mscap) : List UInt8 :=
  Memory.leBytes 8 m.timestamp.toNat ++ Memory.leBytes 4 m.identification.toNat

@[simp] theorem Mscap.length_bytes (m : Mscap) : m.bytes.length = mscapSize := by
  rw [bytes, length_append, Memory.length_leBytes, Memory.length_leBytes]
  rfl

theorem length_flatMap_bytes (ms : List Mscap) : (ms.flatMap Mscap.bytes).length = ms.length * mscapSize := by
  rw [length_flatMap, map_congr_left fun m _ => m.length_bytes]
  simp

namespace PcapWriter

variable {D : Type} {w : PcapWriter D} {content : List UInt8}

/-- The two stores are one of the whole record. -/
theorem writeMscap_eq (w : PcapWriter D) (m : Mscap) :
    w.writeMscap m =
      let w := if w.mapping.length ≤ w.offset + mscapSize then w.resize (w.mapping.length * 2) else w
      (storeBytes w.mapping w.offset m.bytes).map fun mapping => { w with mapping, offset := w.offset + mscapSize } := by
  unfold writeMscap
  dsimp only
  generalize (if w.mapping.length ≤ w.offset + mscapSize then w.resize (w.mapping.length * 2) else w) = w
  have both := storeBytes_bind w.mapping w.offset (Memory.leBytes 8 m.timestamp.toNat)
    (Memory.leBytes 4 m.identification.toNat)
  rw [Memory.length_leBytes] at both
  rw [Mscap.bytes, ← both, Option.map_bind]
  change ((storeBytes w.mapping (w.offset + 8) _).bind fun after => (storeBytes after w.offset _).bind _) = _
  congr 1
  funext after
  rw [Function.comp_apply, Option.map_eq_bind]
  rfl

/-- The mapping of a writer of mscap files has room for at least two records. -/
theorem writeMscap_spec (wrote : w.Wrote content) (m : Mscap) (large : mscapSize ≤ w.mapping.length) :
    ∃ after, w.writeMscap m = some after ∧ after.Wrote (content ++ m.bytes) ∧ mscapSize ≤ after.mapping.length := by
  obtain ⟨grown, made, grew, fit⟩ := wrote.grow mscapSize
  have offset := wrote.offset
  have room : grown.offset + m.bytes.length ≤ grown.mapping.length := by
    rw [m.length_bytes]
    exact fit.mpr (by omega)
  obtain ⟨mapping, store, same, wrote⟩ := grew.wrote.store room
  rw [m.length_bytes] at wrote
  rw [writeMscap_eq, made]
  exact ⟨_, by simp only [store, Option.map_some], wrote, (large.trans grew.grown).trans same.ge⟩

theorem writesMscap_spec (wrote : w.Wrote content) (ms : List Mscap) (large : mscapSize ≤ w.mapping.length) :
    ∃ after, ms.foldlM writeMscap w = some after ∧ after.Wrote (content ++ ms.flatMap Mscap.bytes) := by
  induction ms generalizing w content with
  | nil => exact ⟨w, rfl, by simpa using wrote⟩
  | cons m ms ih =>
    obtain ⟨middle, run, wrote, large⟩ := writeMscap_spec wrote m large
    obtain ⟨after, runs, wrote⟩ := ih wrote large
    rw [append_assoc] at wrote
    exact ⟨after, by rw [foldlM_cons, run]; exact runs, wrote⟩

end PcapWriter

section
variable {mem : Memory} {size offset : Nat} {m : Mscap} {ms : List Mscap}

theorem readMscap_of_holds (holds : mem.Holds offset m.bytes) (left : offset + mscapSize ≤ size) :
    readMscap mem size offset = some m := by
  obtain ⟨time, ident⟩ := Memory.holds_append.mp holds
  rw [Memory.length_leBytes] at ident
  have more : ¬(size : Int) - offset < mscapSize := by omega
  rw [readMscap, if_neg more, Memory.u64_of_holds time, Memory.u32_of_holds ident]

/-- A reader in front of some records finds them one after the other. -/
theorem readMscaps_of_holds (holds : mem.Holds offset (ms.flatMap Mscap.bytes))
    (left : offset + ms.length * mscapSize = size) {fuel : Nat} (enough : ms.length < fuel) :
    readMscaps mem size fuel offset = some ms := by
  induction fuel generalizing ms offset with
  | zero => omega
  | succ fuel ih =>
    cases ms with
    | nil =>
      have past : (size : Int) - offset < mscapSize := by
        have positive : 0 < mscapSize := Nat.succ_pos _
        rw [length_nil, Nat.zero_mul] at left
        omega
      rw [readMscaps, readMscap, if_pos past]
    | cons m ms =>
      rw [length_cons, Nat.succ_mul] at left
      rw [length_cons] at enough
      rw [flatMap_cons, Memory.holds_append, m.length_bytes] at holds
      have rest := ih holds.2 (by omega) (by omega)
      rw [readMscaps, readMscap_of_holds holds.1 (by omega)]
      simp only [rest, Option.map_some]

end

/-- Every record written comes back in order, as long as there is one. -/
theorem readBack_eq_iff (ms : List Mscap) (beyond : Memory) :
    readBack (ms.flatMap Mscap.bytes) beyond = some ms ↔ ms ≠ [] := by
  have length := length_flatMap_bytes ms
  unfold readBack newMscapReader
  constructor
  · rintro read rfl
    simp at read
  · intro nonempty
    have positive : 0 < ms.length := length_pos_iff.mpr nonempty
    have holds := Memory.ofFile_holds [] (ms.flatMap Mscap.bytes) beyond
    have size : ms.length ≤ ms.length * mscapSize := Nat.le_mul_of_pos_right _ (Nat.succ_pos _)
    rw [if_neg (by omega), Option.bind_some, length]
    exact readMscaps_of_holds holds (Nat.zero_add _) (by omega)

end MoonGen
