import MoonGen.Pcap.Capture

namespace MoonGen

open List

/-- No byte at or behind the end or outside the file is read, and `remaining` does not wrap. -/
def Access.Safe (size : Nat) : Access → Prop
  | .read start len => len = 0 ∨ start + len ≤ size
  | .consume remaining used => used ≤ remaining
  | .readNull => False

instance (size : Nat) : (a : Access) → Decidable (a.Safe size)
  | .read _ _ => inferInstanceAs (Decidable (_ ∨ _))
  | .consume remaining used => inferInstanceAs (Decidable (used ≤ remaining))
  | .readNull => isFalse id

def inclLenAt (mem : Memory) (src : Nat) : Nat := (mem.u32 (src + 8)).toNat

/-- The records that a batch visits: of each header there is as much as gets read,
and a record that is not refused lies in the file as a whole. -/
def WholeRecords (mem : Memory) (size : Nat) (alloc : Nat → Bool) : (numBufs i src : Nat) → Prop
  | 0, _, _ => True
  | numBufs + 1, i, src =>
    src + 12 ≤ size ∧ (size ≤ src + inclLenAt mem src ∨ (alloc i = false ∧ src + 16 ≤ size) ∨
      (src + (inclLenAt mem src + 16) ≤ size ∧
        WholeRecords mem size alloc numBufs (i + 1) (src + (inclLenAt mem src + 16))))

/-- What a call needs of the file at the offset of the reader, and a single one of the mempool. -/
def ReadCall.Whole (mem : Memory) (size offset : Nat) : ReadCall → Prop
  | .readSingle alloc => size < offset + 32 ∨ alloc = true ∧ offset + (inclLenAt mem offset + 16) ≤ size
  | .read numBufs alloc => size < offset + 32 ∨ WholeRecords mem size alloc numBufs 0 offset

/-- A new reader of a capture that is called again and again: its offset, and what
the calls did. -/
def captureReader (mem : Memory) (size : Nat) (mempoolBufSize : UInt32) : Machine (Nat × List Access) ReadCall where
  start s := s = (pcapHdrSize, [])
  enabled _ _ := True
  next s call :=
    let result := call.run mem size mempoolBufSize s.1
    (result.offset, s.2 ++ result.log)

section
variable {mem : Memory} {size src : Nat} {mempoolBufSize : UInt32} {alloc : Nat → Bool}
variable {remaining : UInt64}

theorem remaining_le_inclLen (exact : src + remaining.toNat = size) :
    remaining ≤ (mem.u32 (src + 8)).toUInt64 ↔ size ≤ src + inclLenAt mem src := by
  rw [UInt64.le_iff_toNat_le, UInt32.toNat_toUInt64]
  change _ ≤ inclLenAt mem src ↔ _
  omega

theorem toNat_used : ((mem.u32 (src + 8)).toUInt64 + 16).toNat = inclLenAt mem src + 16 :=
  toNat_add_recHdr _

theorem used_le_remaining (exact : src + remaining.toNat = size) :
    (mem.u32 (src + 8)).toUInt64 + 16 ≤ remaining ↔ src + (inclLenAt mem src + 16) ≤ size := by
  rw [UInt64.le_iff_toNat_le, toNat_used]
  omega

/-- Behind a whole record `remaining` is right again. -/
theorem remaining_sub_used (exact : src + remaining.toNat = size) (whole : src + (inclLenAt mem src + 16) ≤ size) :
    src + (inclLenAt mem src + 16) + (remaining - ((mem.u32 (src + 8)).toUInt64 + 16)).toNat = size := by
  rw [UInt64.toNat_sub_of_le _ _ ((used_le_remaining exact).mpr whole), toNat_used]
  omega

/-- The outcomes of `libmoon_read_pcap`: no record, no buffer, or a packet. -/
theorem libmoonReadPcap_cases (mem : Memory) (mempoolBufSize : UInt32)
    (exact : src + remaining.toNat = size) (got : Bool) :
    (size ≤ src + inclLenAt mem src ∧
      libmoonReadPcap mem src remaining mempoolBufSize got = (none, [.read (src + 8) 4])) ∨
    (src + inclLenAt mem src < size ∧ got = false ∧
      libmoonReadPcap mem src remaining mempoolBufSize got = (none, [.read (src + 8) 4, .read (src + 12) 4])) ∨
    (src + inclLenAt mem src < size ∧ got = true ∧ ∃ buf, buf.pktLen = mem.u32 (src + 8) ∧
      libmoonReadPcap mem src remaining mempoolBufSize got = (some buf, [.read (src + 8) 4, .read (src + 12) 4,
        .read src 4, .read (src + 4) 4, .read (src + 16) (copyLen mempoolBufSize (mem.u32 (src + 8))).toNat])) := by
  unfold libmoonReadPcap
  dsimp only
  split
  · rename_i refused
    exact .inl ⟨(remaining_le_inclLen exact).mp refused, rfl⟩
  · rename_i more
    rw [remaining_le_inclLen exact, Nat.not_le] at more
    cases got with
    | false => exact .inr (.inl ⟨more, rfl, rfl⟩)
    | true => exact .inr (.inr ⟨more, rfl, _, rfl, rfl⟩)

/-- Behind a packet the reader goes on where its record ends. -/
theorem offset_behind {buf : PcapBuf} (length : buf.pktLen = mem.u32 (src + 8)) :
    src + buf.pktLen.toNat + 16 = src + (inclLenAt mem src + 16) := by
  rw [length, Nat.add_assoc]
  rfl

/-- A packet with its whole record in the file is read from inside of it. -/
theorem record_reads_safe (room : 128 ≤ mempoolBufSize) (whole : src + (inclLenAt mem src + 16) ≤ size) :
    ∀ a ∈ [Access.read (src + 8) 4, .read (src + 12) 4, .read src 4, .read (src + 4) 4,
      .read (src + 16) (copyLen mempoolBufSize (mem.u32 (src + 8))).toNat], a.Safe size := by
  have copy : (copyLen mempoolBufSize (mem.u32 (src + 8))).toNat =
      min (inclLenAt mem src) (mempoolBufSize.toNat - 128) :=
    toNat_copyLen room
  simp only [mem_cons, not_mem_nil, or_false, forall_eq_or_imp, forall_eq, Access.Safe]
  omega

theorem libmoonReadPcapBatch_safe_iff (room : 128 ≤ mempoolBufSize) {numBufs i : Nat}
    (exact : src + remaining.toNat = size) :
    (∀ a ∈ (libmoonReadPcapBatch mem mempoolBufSize alloc numBufs i src remaining).2, a.Safe size) ↔
      WholeRecords mem size alloc numBufs i src := by
  induction numBufs generalizing i src remaining with
  | zero => simp [libmoonReadPcapBatch, WholeRecords]
  | succ numBufs ih =>
    rw [libmoonReadPcapBatch, WholeRecords]
    rcases libmoonReadPcap_cases mem mempoolBufSize exact (alloc i) with ⟨refused, call⟩ | ⟨more, got, call⟩ |
      ⟨more, got, buf, -, call⟩
    · simp only [call, mem_singleton, forall_eq, Access.Safe]
      omega
    · rw [call]
      simp only [mem_cons, not_mem_nil, or_false, forall_eq_or_imp, forall_eq, Access.Safe, got, true_and]
      omega
    · rw [call]
      simp only [got, mem_append, or_imp, forall_and]
      constructor
      · rintro ⟨⟨-, loop⟩, rest⟩
        have fits := loop (.consume remaining ((mem.u32 (src + 8)).toUInt64 + 16)) (by simp)
        have whole := (used_le_remaining exact).mp fits
        rw [toNat_used, ih (remaining_sub_used exact whole)] at rest
        exact ⟨by omega, .inr (.inr ⟨whole, rest⟩)⟩
      · rintro ⟨-, claimed | ⟨wrong, -⟩ | ⟨whole, rest⟩⟩
        · omega
        · cases wrong
        · refine ⟨⟨record_reads_safe room whole, ?_⟩, ?_⟩
          · simp only [mem_cons, not_mem_nil, or_false, forall_eq_or_imp, forall_eq, Access.Safe]
            exact ⟨by omega, (used_le_remaining exact).mpr whole⟩
          · rw [toNat_used, ih (remaining_sub_used exact whole)]
            exact rest

theorem libmoonReadPcapBatch_offset {numBufs i : Nat} (exact : src + remaining.toNat = size)
    (whole : WholeRecords mem size alloc numBufs i src) :
    (libmoonReadPcapBatch mem mempoolBufSize alloc numBufs i src remaining).1.foldl
      (fun offset buf => offset + buf.pktLen.toNat + 16) src ≤ size := by
  induction numBufs generalizing i src remaining with
  | zero =>
    change src ≤ size
    omega
  | succ numBufs ih =>
    rw [libmoonReadPcapBatch]
    rcases libmoonReadPcap_cases mem mempoolBufSize exact (alloc i) with ⟨-, call⟩ | ⟨-, -, call⟩ |
      ⟨more, got, buf, length, call⟩
    · rw [call]
      change src ≤ size
      omega
    · rw [call]
      change src ≤ size
      omega
    · rw [call]
      obtain ⟨-, claimed | ⟨refused, -⟩ | ⟨fits, rest⟩⟩ := whole
      · omega
      · rw [got] at refused
        cases refused
      · dsimp only
        rw [foldl_cons, offset_behind length, toNat_used]
        exact ih (remaining_sub_used exact fits) rest

variable {offset : Nat}

theorem offset_add_remaining (offT : size < 2 ^ 63) (within : offset ≤ size) :
    offset + (UInt64.ofNat (size - offset)).toNat = size := by
  rw [UInt64.toNat_ofNat_of_lt' (by change _ < 2 ^ 64; omega)]
  omega

theorem ReadCall.run_of_few (few : (size : Int) - offset < 32) (call : ReadCall) :
    call.run mem size mempoolBufSize offset = ⟨[], offset, []⟩ := by
  cases call with
  | readSingle got => exact if_pos few
  | read numBufs alloc => exact if_pos few

theorem ReadCall.whole_of_few (few : (size : Int) - offset < 32) (call : ReadCall) : call.Whole mem size offset := by
  have short : size < offset + 32 := by omega
  cases call with
  | readSingle got => exact .inl short
  | read numBufs alloc => exact .inl short

theorem ReadCall.readSingle_inside_iff (room : 128 ≤ mempoolBufSize) (offT : size < 2 ^ 63)
    (within : offset ≤ size) (many : ¬(size : Int) - offset < 32) (got : Bool) :
    (((readSingle got).run mem size mempoolBufSize offset).offset ≤ size ∧
      ∀ a ∈ ((readSingle got).run mem size mempoolBufSize offset).log, a.Safe size) ↔
      (readSingle got).Whole mem size offset := by
  have remaining : ((size : Int) - offset).toNat = size - offset := by omega
  simp only [ReadCall.run, MoonGen.readSingle, ReadCall.Whole, remaining]
  rw [if_neg many]
  rcases libmoonReadPcap_cases mem mempoolBufSize (offset_add_remaining offT within) got with
    ⟨refused, call⟩ | ⟨more, rfl, call⟩ | ⟨more, rfl, buf, length, call⟩
  · refine iff_of_false (fun safe => ?_) (by omega)
    exact safe.2 .readNull (by simp [call])
  · refine iff_of_false (fun safe => ?_) (by simp; omega)
    exact safe.2 .readNull (by simp [call])
  · simp only [call, offset_behind length, true_and]
    constructor
    · exact fun both => .inr both.1
    · intro enough
      have whole := enough.resolve_left (by omega)
      exact ⟨whole, record_reads_safe room whole⟩

/-- A call stays inside the file, and so does the reader's offset, exactly when
the records it visits allow it. -/
theorem ReadCall.inside_iff (room : 128 ≤ mempoolBufSize) (offT : size < 2 ^ 63) (within : offset ≤ size)
    (call : ReadCall) :
    ((call.run mem size mempoolBufSize offset).offset ≤ size ∧
      ∀ a ∈ (call.run mem size mempoolBufSize offset).log, a.Safe size) ↔ call.Whole mem size offset := by
  by_cases few : (size : Int) - offset < 32
  · rw [call.run_of_few few]
    exact iff_of_true ⟨within, forall_mem_nil _⟩ (call.whole_of_few few)
  cases call with
  | readSingle got => exact readSingle_inside_iff room offT within few got
  | read numBufs alloc =>
    have remaining : ((size : Int) - offset).toNat = size - offset := by omega
    have exact := offset_add_remaining offT within
    simp only [ReadCall.run, readBatch, ReadCall.Whole, remaining]
    rw [if_neg few]
    simp only [libmoonReadPcapBatch_safe_iff room exact]
    constructor
    · exact fun both => .inr both.2
    · intro enough
      have whole := enough.resolve_left (by omega)
      exact ⟨libmoonReadPcapBatch_offset exact whole, whole⟩

end

/-- In every run whose calls find whole records the reader stays inside the file.
Each further call does so exactly when it finds whole records, too. -/
theorem capture_reader_stays_inside {file : List UInt8} (header : pcapHdrSize ≤ file.length)
    (offT : file.length < 2 ^ 63) (beyond : Memory) {mempoolBufSize : UInt32} (room : 128 ≤ mempoolBufSize)
    {offset : Nat} {log : List Access}
    (reach : ((captureReader (.ofFile file beyond) file.length mempoolBufSize).guarded
      (fun s call => call.Whole (.ofFile file beyond) file.length s.1)).Reach (offset, log)) :
    offset ≤ file.length ∧ (∀ a ∈ log, a.Safe file.length) ∧ ∀ call : ReadCall,
      ((call.run (.ofFile file beyond) file.length mempoolBufSize offset).offset ≤ file.length ∧
        ∀ a ∈ (call.run (.ofFile file beyond) file.length mempoolBufSize offset).log, a.Safe file.length) ↔
      call.Whole (.ofFile file beyond) file.length offset := by
  have inside : offset ≤ file.length ∧ ∀ a ∈ log, a.Safe file.length := by
    refine reach.invariant (I := fun s => s.1 ≤ file.length ∧ ∀ a ∈ s.2, a.Safe file.length) ?_ ?_
    · rintro s rfl
      exact ⟨header, by simp⟩
    · rintro ⟨offset, log⟩ call ⟨within, safe⟩ ⟨-, whole⟩
      obtain ⟨next, reads⟩ := (call.inside_iff room offT within).mpr whole
      refine ⟨next, fun a member => ?_⟩
      exact (mem_append.mp member).elim (safe a) (reads a)
  exact ⟨inside.1, inside.2, fun call => call.inside_iff room offT inside.1⟩

/-- A capture of one packet of 16 bytes, which its writer has closed. -/
def closedCapture : List UInt8 := pcapHdr ++ PcapRecord.bytes ⟨1, 2, List.replicate 16 7, 16⟩

/-- The same file with a packet of 31 bytes, cut off after 16 of them. -/
def cutCapture : List UInt8 := (pcapHdr ++ PcapRecord.bytes ⟨1, 2, List.replicate 31 7, 31⟩).take 56

theorem capture_reader_stays_inside_single : ∃ offset log,
    ((captureReader (.ofFile closedCapture fun _ => 0) closedCapture.length 2048).guarded
      (fun s call => call.Whole (.ofFile closedCapture fun _ => 0) closedCapture.length s.1)).Reach (offset, log) ∧
    offset = closedCapture.length ∧ ∀ a ∈ log, a.Safe closedCapture.length := by
  have header : pcapHdrSize ≤ closedCapture.length := by decide
  have offT : closedCapture.length < 2 ^ 63 := by decide
  have whole : (ReadCall.readSingle true).Whole (.ofFile closedCapture fun _ => 0) closedCapture.length pcapHdrSize :=
    .inr ⟨rfl, by decide +kernel⟩
  have reach := Machine.Reach.step
    (m := (captureReader (.ofFile closedCapture fun _ => 0) closedCapture.length 2048).guarded
      (fun s call => call.Whole (.ofFile closedCapture fun _ => 0) closedCapture.length s.1)) (.start rfl)
    ⟨trivial, whole⟩
  refine ⟨_, _, reach, by decide +kernel, ?_⟩
  exact (capture_reader_stays_inside header offT (fun _ => 0) (by decide) reach).2.1

/-- At the end of a proper file a batch looks for one more record behind it, and a single
call without a free buffer reads a null pointer. With a record that is cut off, the offset
leaves the file and `remaining` wraps. -/
theorem capture_reader_leaves_file :
    (∃ a ∈ (ReadCall.run (.ofFile closedCapture fun _ => 0) closedCapture.length 2048 pcapHdrSize
      (.read 2 fun _ => true)).log, ¬a.Safe closedCapture.length) ∧
    .readNull ∈ (ReadCall.run (.ofFile closedCapture fun _ => 0) closedCapture.length 2048 pcapHdrSize
      (.readSingle false)).log ∧
    cutCapture.length < (ReadCall.run (.ofFile cutCapture fun _ => 0) cutCapture.length 2048 pcapHdrSize
      (.readSingle true)).offset ∧
    ∃ remaining used, .consume remaining used ∈ (ReadCall.run (.ofFile cutCapture fun _ => 0) cutCapture.length 2048
      pcapHdrSize (.read 1 fun _ => true)).log ∧ remaining < used := by
  refine ⟨⟨.read 64 4, ?_, ?_⟩, ?_, ?_, 32, 47, ?_, ?_⟩ <;> decide +kernel

end MoonGen
