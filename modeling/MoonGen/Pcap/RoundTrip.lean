import MoonGen.Pcap.Records
import MoonGen.Pcap.Writer

namespace MoonGen

open List

/-- A packet as the user of a buffer sees it. -/
structure PcapPacket where
  size : Nat
  udata64 : Nat
  content : List UInt8
  deriving DecidableEq

def PcapBuf.packet (buf : PcapBuf) : PcapPacket := ⟨buf.pktLen.toNat, buf.udata64.toNat, buf.data⟩

/-- The packet that a record stands for in buffers of a given size: cut off bytes
are filled with zeros, and what does not fit is left out. -/
def PcapRecord.packet (r : PcapRecord) (mempoolBufSize : UInt32) : PcapPacket :=
  let size := min r.origLen.toNat (mempoolBufSize.toNat - 128)
  ⟨size, r.tsSec.toNat * 1000000 + r.tsUsec.toNat, r.data.take size ++ List.replicate (size - r.data.length) 0⟩

/-- A record that a reader finds: it is not too short to be seen as one. -/
structure PcapRecord.Readable (r : PcapRecord) : Prop where
  long : 16 ≤ r.data.length
  saved : r.data.length ≤ r.origLen.toNat
  small : r.origLen.toNat < 2 ^ 31

/-- The packets that each call returns. -/
def readAnswers (mem : Memory) (size : Nat) (mempoolBufSize : UInt32) (offset : Nat) :
    List ReadCall → List (List PcapPacket)
  | [] => []
  | call :: calls =>
    let result := call.run mem size mempoolBufSize offset
    result.bufs.map PcapBuf.packet :: readAnswers mem size mempoolBufSize result.offset calls

section
variable {D : Type} [Double D]

theorem PcapWriter.writes_spec {w : PcapWriter D} {content : List UInt8} (wrote : w.Wrote content)
    {calls : List (WriteCall D)} (fits : ∀ c ∈ calls, c.data.length + 16 ≤ w.mapping.length) :
    ∃ after, calls.foldlM PcapWriter.write w = some after ∧
      after.Wrote (content ++ recordBytes (calls.map (WriteCall.record w.startTime))) := by
  induction calls generalizing w content with
  | nil => exact ⟨w, rfl, by simpa using wrote⟩
  | cons c calls ih =>
    have fit := fits c mem_cons_self
    have offset := wrote.offset
    rcases PcapWriter.write_cases wrote c with ⟨-, middle, run, wrote, start, -, length⟩ | ⟨past, -⟩
    · have grown : w.mapping.length ≤ middle.mapping.length := length ▸ w.le_length_makeRoom _
      obtain ⟨after, runs, wrote⟩ := ih wrote fun d member => (fits d (mem_cons_of_mem c member)).trans grown
      refine ⟨after, by rw [foldlM_cons, run]; exact runs, ?_⟩
      rw [start, append_assoc] at wrote
      exact wrote
    · omega

theorem writeCapture_eq {initialFileSize : Nat} (startTime : D) {calls : List (WriteCall D)}
    (header : pcapHdrSize ≤ initialFileSize) (fits : ∀ c ∈ calls, c.data.length + 16 ≤ initialFileSize) :
    writeCapture initialFileSize startTime calls =
      some (pcapHdr ++ recordBytes (calls.map (WriteCall.record startTime))) := by
  obtain ⟨w, made, wrote, -, length, start⟩ := newWriter_spec header startTime
  obtain ⟨after, runs, wrote⟩ := PcapWriter.writes_spec wrote fun c member => (fits c member).trans length.ge
  rw [start] at wrote
  rw [writeCapture, made]
  change (calls.foldlM PcapWriter.write w >>= _) = _
  rw [runs]
  exact congrArg some wrote.front

end

section
variable {mem : Memory} {size src : Nat} {mempoolBufSize : UInt32} {r : PcapRecord} {records : List PcapRecord}

theorem readHeader_of_holds (holds : mem.Holds 0 pcapHdr) : readHeader mem = .ok pcapHdrSize := by
  simp only [pcapHdr, Memory.holds_append, Memory.length_leBytes] at holds
  obtain ⟨magic, major, minor, -, -, -, network⟩ := holds
  have magic : mem.u32 0 = 0xa1b2c3d4 := Memory.u32_of_holds magic
  have major : mem.u16 4 = 2 := Memory.u16_of_holds major
  have minor : mem.u16 6 = 4 := Memory.u16_of_holds minor
  have network : mem.u32 20 = 1 := Memory.u32_of_holds network
  simp [readHeader, magic, major, minor, network]

/-- Cutting and filling gives what the record stands for. -/
theorem PcapRecord.Readable.content_eq (readable : r.Readable) (room : 128 ≤ mempoolBufSize) {inclLen : UInt32}
    (incl : inclLen.toNat = r.data.length) :
    r.data.take (copyLen mempoolBufSize inclLen).toNat ++
        List.replicate (zeroFillLen mempoolBufSize inclLen r.origLen).toNat 0 =
      (r.packet mempoolBufSize).content := by
  have order : inclLen ≤ r.origLen := by
    rw [UInt32.le_iff_toNat_le, incl]
    exact readable.saved
  have saved := readable.saved
  have copy : (copyLen mempoolBufSize inclLen).toNat = min inclLen.toNat (mempoolBufSize.toNat - 128) :=
    toNat_copyLen room
  have total := toNat_copyLen_add_zeroFillLen room order
  simp only [PcapRecord.packet]
  rw [← total]
  rcases Nat.le_total r.data.length (mempoolBufSize.toNat - 128) with whole | cut
  · have copied : (copyLen mempoolBufSize inclLen).toNat = r.data.length := by omega
    rw [copied, take_length, take_of_length_le (Nat.le_add_right _ _), Nat.add_sub_cancel_left]
  · have filled : (zeroFillLen mempoolBufSize inclLen r.origLen).toNat = 0 := by omega
    have rest : (copyLen mempoolBufSize inclLen).toNat - r.data.length = 0 := by omega
    rw [filled, Nat.add_zero, rest]

theorem PcapRecord.Readable.complete (readable : r.Readable) : r.data.length < 2 ^ 32 := by
  obtain ⟨-, saved, small⟩ := readable
  omega

/-- The buffer for a record is the packet that the record stands for. -/
theorem PcapRecord.Readable.packet_eq (readable : r.Readable) (holds : mem.Holds src r.bytes)
    (room : 128 ≤ mempoolBufSize) (word : mempoolBufSize.toNat ≤ 65535) :
    (pcapBufAt mem mempoolBufSize src).unchained.packet = r.packet mempoolBufSize := by
  obtain ⟨sec, usec, incl, orig, data⟩ := RecordAt.of_holds readable.complete holds
  have order : mem.u32 (src + 8) ≤ mem.u32 (src + 12) := by
    rw [UInt32.le_iff_toNat_le, incl, orig]
    exact readable.saved
  have total := toNat_copyLen_add_zeroFillLen room order
  have copy : (copyLen mempoolBufSize (mem.u32 (src + 8))).toNat = _ := toNat_copyLen room
  have size : (copyLen mempoolBufSize (mem.u32 (src + 8)) +
      zeroFillLen mempoolBufSize (mem.u32 (src + 8)) (mem.u32 (src + 12))).toUInt16.toUInt32.toNat =
      (r.packet mempoolBufSize).size := by
    rw [UInt16.toNat_toUInt32, UInt32.toNat_toUInt16, UInt32.toNat_add, total, orig]
    simp only [PcapRecord.packet]
    omega
  have time : ((mem.u32 src).toUInt64 * 1000000 + (mem.u32 (src + 4)).toUInt64).toNat =
      (r.packet mempoolBufSize).udata64 := by
    have sec' := r.tsSec.toNat_lt
    have usec' := r.tsUsec.toNat_lt
    rw [UInt64.toNat_add, UInt64.toNat_mul, UInt32.toNat_toUInt64, UInt32.toNat_toUInt64, sec, usec]
    change (r.tsSec.toNat * 1000000 % 2 ^ 64 + r.tsUsec.toNat) % 2 ^ 64 = r.tsSec.toNat * 1000000 + r.tsUsec.toNat
    omega
  have content := readable.content_eq room incl
  rw [← data.slice_eq (by omega), ← orig] at content
  simp only [pcapBufAt, PcapBuf.packet, PcapBuf.unchained]
  rw [size, time, content]

theorem recordBufs_packets (readable : ∀ r ∈ records, r.Readable) (holds : mem.Holds src (recordBytes records))
    (room : 128 ≤ mempoolBufSize) (word : mempoolBufSize.toNat ≤ 65535) :
    ((recordBufs mem mempoolBufSize src records).map PcapBuf.unchained).map PcapBuf.packet =
      records.map fun r => r.packet mempoolBufSize := by
  induction records generalizing src with
  | nil => rfl
  | cons r records ih =>
    obtain ⟨here, behind⟩ := Memory.holds_append.mp holds
    have first := (readable r mem_cons_self).packet_eq here room word
    have rest := ih (fun r member => readable r (mem_cons_of_mem _ member)) behind
    rw [recordBufs, map_cons, map_cons, first, rest, map_cons]

/-- A reader in front of the records that are left of its file. -/
structure ReaderAt (mem : Memory) (size offset : Nat) (records : List PcapRecord) : Prop where
  readable : ∀ r ∈ records, r.Readable
  holds : mem.Holds offset (recordBytes records)
  left : offset + (recordBytes records).length = size

variable {offset : Nat}
section
variable (stands : ReaderAt mem size offset records)

include stands

theorem ReaderAt.ahead : Ahead mem size offset records :=
  ⟨fun r member => (stands.readable r member).complete, stands.holds, stands.left⟩

theorem ReaderAt.drop (n : Nat) :
    ReaderAt mem size (offset + (recordBytes (records.take n)).length) (records.drop n) := by
  obtain ⟨-, holds, left⟩ := stands.ahead.drop n
  exact ⟨fun r member => stands.readable r (mem_of_mem_drop member), holds, left⟩

/-- A call returns the next packets, as many as it asks for or all that are left. -/
theorem ReaderAt.run (offT : size < 2 ^ 63)
    (room : 128 ≤ mempoolBufSize) (word : mempoolBufSize.toNat ≤ 65535) {call : ReadCall} (allocates : call.Allocates) :
    (call.run mem size mempoolBufSize offset).bufs.map PcapBuf.packet =
        (records.take call.requested).map (fun r => r.packet mempoolBufSize) ∧
      ReaderAt mem size (call.run mem size mempoolBufSize offset).offset (records.drop call.requested) := by
  cases records with
  | nil =>
    obtain ⟨bufs, same⟩ := @Ahead.run_of_few _ _ mempoolBufSize _ _ stands.ahead (by simp) call
    rw [bufs, same, take_nil, drop_nil]
    exact ⟨rfl, stands⟩
  | cons r rest =>
    have many : 32 ≤ (recordBytes (r :: rest)).length := by
      have long := (stands.readable r mem_cons_self).long
      have length := r.length_bytes
      rw [recordBytes_cons, length_append]
      omega
    obtain ⟨bufs, offset'⟩ := @Ahead.run _ _ mempoolBufSize _ _ stands.ahead offT many call allocates
    rw [bufs, offset']
    refine ⟨recordBufs_packets (fun r member => stands.readable r (List.mem_of_mem_take member)) ?_ room word,
      stands.drop _⟩
    have holds := stands.holds
    rw [← take_append_drop call.requested (r :: rest), recordBytes_append] at holds
    exact (Memory.holds_append.mp holds).1

/-- The calls together return the packets in order. A call that returns nothing
has no packets left to return. -/
theorem ReaderAt.answers (offT : size < 2 ^ 63)
    (room : 128 ≤ mempoolBufSize) (word : mempoolBufSize.toNat ≤ 65535) {calls : List ReadCall}
    (able : ∀ call ∈ calls, call.Allocates ∧ 1 ≤ call.requested) :
    (readAnswers mem size mempoolBufSize offset calls).flatten =
        (records.map fun r => r.packet mempoolBufSize).take (calls.map ReadCall.requested).sum ∧
      ([] ∈ readAnswers mem size mempoolBufSize offset calls →
        (readAnswers mem size mempoolBufSize offset calls).flatten = records.map fun r => r.packet mempoolBufSize) := by
  induction calls generalizing offset records with
  | nil => simp [readAnswers]
  | cons call calls ih =>
    obtain ⟨allocates, asks⟩ := able call mem_cons_self
    obtain ⟨packets, stands⟩ := stands.run offT room word allocates
    obtain ⟨front, ended⟩ := ih stands fun call member => able call (mem_cons_of_mem _ member)
    have split : records.map (fun r => r.packet mempoolBufSize) =
        (records.take call.requested).map (fun r => r.packet mempoolBufSize) ++
          (records.drop call.requested).map (fun r => r.packet mempoolBufSize) := by
      rw [← map_append, take_append_drop]
    simp only [readAnswers, packets, flatten_cons, map_cons, sum_cons]
    refine ⟨?_, fun member => ?_⟩
    · rw [front, take_add, map_take, map_drop]
    · rcases mem_cons.mp member with first | later
      · have empty : records = [] := by
          have length := congrArg List.length first
          rw [length_nil, length_map, length_take] at length
          exact eq_nil_of_length_eq_zero (by omega)
        rw [front, empty]
        simp
      · rw [ended later, split]
end

end

/-- A call that is made for a record. Its time is that of the record if this lies on the grid
of 1/64 s, and is otherwise taken from the middle half of the microsecond. -/
structure PcapRecord.WrittenBy (startTime : Lua.Number) (r : PcapRecord) (c : WriteCall Lua.Number) : Prop where
  data : c.data = r.data
  origLen : c.origLen.getD (.ofNat c.data.length) = r.origLen
  usec : r.tsUsec.toNat < 10 ^ 6
  time : ∃ start stamp : ℚ, startTime = .finite start ∧ c.timestamp = .finite stamp ∧
    (r.tsUsec.toNat % 15625 = 0 ∧ start + stamp = r.tsSec.toNat + r.tsUsec.toNat / 10 ^ 6 ∨
      r.tsSec.toNat + (r.tsUsec.toNat + 1 / 4) / 10 ^ 6 ≤ start + stamp ∧
        start + stamp ≤ r.tsSec.toNat + (r.tsUsec.toNat + 3 / 4) / 10 ^ 6)

section
open Binary64
variable {sec usec : Nat} {x : ℚ}

/-- On the grid nothing is rounded. -/
theorem rounded_of_grid (second : sec < 2 ^ 32) (micros : usec < 10 ^ 6) (grid : usec % 15625 = 0)
    (same : x = sec + usec / 10 ^ 6) :
    rounded x = x ∧ rounded (x - sec) = x - sec ∧ rounded ((x - sec) * 10 ^ 6) = usec := by
  obtain ⟨j, rfl⟩ : ∃ j, usec = 15625 * j := ⟨usec / 15625, by omega⟩
  have whole : x = (64 * sec + j : ℤ) * 2 ^ (-6 : ℤ) := by
    rw [same]
    push_cast
    ring
  have part : x - sec = (j : ℤ) * 2 ^ (-6 : ℤ) := by
    rw [same]
    push_cast
    ring
  have micros : (x - sec) * 10 ^ 6 = (15625 * j : Nat) := by
    rw [same]
    push_cast
    ring
  refine ⟨?_, ?_, ?_⟩
  · rw [whole, @rounded_mantissa (64 * sec + j) (-6) (abs_lt.mpr (by omega)) (by decide)]
  · rw [part, @rounded_mantissa j (-6) (abs_lt.mpr (by omega)) (by decide)]
  · rw [micros, rounded_natCast (by omega)]

/-- In the middle of a microsecond the errors of the three steps do not reach its ends. -/
theorem floor_of_middle (second : sec < 2 ^ 32) (micros : usec < 10 ^ 6)
    (least : sec + (usec + 1 / 4) / 10 ^ 6 ≤ x) (most : x ≤ sec + (usec + 3 / 4) / 10 ^ 6) :
    ⌊rounded x⌋ = sec ∧ ⌊rounded (rounded (rounded x - sec) * 10 ^ 6)⌋ = usec := by
  have lastSecond : (sec : ℚ) + 1 ≤ 2 ^ 32 := by exact_mod_cast second
  have lastMicro : (usec : ℚ) + 1 ≤ 10 ^ 6 := by exact_mod_cast micros
  have firstSecond : (0 : ℚ) ≤ sec := Nat.cast_nonneg sec
  have firstMicro : (0 : ℚ) ≤ usec := Nat.cast_nonneg usec
  have time : |rounded x - x| ≤ 2 ^ (32 - 54 : ℤ) := by
    refine abs_rounded_sub_le (abs_lt.mpr ?_) (by decide)
    constructor <;> norm_num <;> linarith
  norm_num [abs_le] at time
  have part : |rounded (rounded x - sec) - (rounded x - sec)| ≤ 2 ^ (0 - 54 : ℤ) := by
    refine abs_rounded_sub_le (abs_lt.mpr ?_) (by decide)
    constructor <;> norm_num <;> linarith
  norm_num [abs_le] at part
  have product : |rounded (rounded (rounded x - sec) * 10 ^ 6) - rounded (rounded x - sec) * 10 ^ 6| ≤
      2 ^ (20 - 54 : ℤ) := by
    refine abs_rounded_sub_le (abs_lt.mpr ?_) (by decide)
    constructor <;> norm_num <;> linarith
  norm_num [abs_le] at product
  constructor
  · rw [Int.floor_eq_iff]
    push_cast
    constructor <;> linarith
  · rw [Int.floor_eq_iff]
    norm_num
    constructor <;> linarith

/-- Either way the seconds and the microseconds are those of the record. -/
theorem floor_time (second : sec < 2 ^ 32) (micros : usec < 10 ^ 6)
    (time : usec % 15625 = 0 ∧ x = sec + usec / 10 ^ 6 ∨
      sec + (usec + 1 / 4) / 10 ^ 6 ≤ x ∧ x ≤ sec + (usec + 3 / 4) / 10 ^ 6) :
    |x| < 2 ^ 32 ∧ ⌊rounded x⌋ = sec ∧ ⌊rounded (rounded (rounded x - sec) * 10 ^ 6)⌋ = usec := by
  have lastSecond : (sec : ℚ) + 1 ≤ 2 ^ 32 := by exact_mod_cast second
  have lastMicro : (usec : ℚ) + 1 ≤ 10 ^ 6 := by exact_mod_cast micros
  have firstSecond : (0 : ℚ) ≤ sec := Nat.cast_nonneg sec
  have firstMicro : (0 : ℚ) ≤ usec := Nat.cast_nonneg usec
  rcases time with ⟨grid, same⟩ | ⟨least, most⟩
  · obtain ⟨whole, part, product⟩ := rounded_of_grid second micros grid same
    refine ⟨abs_lt.mpr (by constructor <;> linarith), ?_, ?_⟩
    · rw [whole, Int.floor_eq_iff]
      push_cast
      constructor <;> linarith
    · rw [whole, part, product, Int.floor_natCast]
  · exact ⟨abs_lt.mpr (by constructor <;> linarith), floor_of_middle second micros least most⟩

end

variable {startTime : Lua.Number}

open Binary64 in
/-- What the writer stores for a call is the record that it is made for. -/
theorem PcapRecord.WrittenBy.record_eq {r : PcapRecord} {c : WriteCall Lua.Number}
    (written : r.WrittenBy startTime c) : c.record startTime = r := by
  obtain ⟨data, origLen, usec, start, stamp, rfl, stamped, time⟩ := written
  obtain ⟨small, seconds, micros⟩ := floor_time r.tsSec.toNat_lt usec time
  have least := Int.floor_le (rounded (start + stamp))
  have most := Int.lt_floor_add_one (rounded (start + stamp))
  rw [seconds, Int.cast_natCast] at least most
  have part : |rounded (start + stamp) - r.tsSec.toNat| < 2 ^ 53 := abs_lt.mpr (by constructor <;> linarith)
  have nonneg := @le_rounded 0 _ part (by push_cast; linarith)
  have unit := @rounded_le 1 _ part (by push_cast; linarith)
  have product : |rounded (rounded (start + stamp) - r.tsSec.toNat) * 10 ^ 6| < 2 ^ 53 := by
    push_cast at nonneg unit
    exact abs_lt.mpr (by constructor <;> linarith)
  have top : (2 : ℚ) ^ 53 < 2 ^ 1023 := by decide +kernel
  have million : Double.ofUInt64 1000000 = Lua.Number.finite (10 ^ 6) := by decide +kernel
  have sum : Lua.Number.finite start + c.timestamp = .finite (rounded (start + stamp)) := by
    rw [stamped, Lua.Number.finite_add_finite, Lua.Number.ofRat_of_abs_lt (small.trans (by decide +kernel))]
  have floor : Double.floor (Lua.Number.finite (rounded (start + stamp))) = .finite r.tsSec.toNat := by
    rw [← Int.cast_natCast, ← seconds]
    rfl
  rw [data] at origLen
  simp only [WriteCall.record, sum, floor, million, Lua.Number.finite_sub_finite, Lua.Number.finite_mul_finite,
    Lua.Number.ofRat_of_abs_lt (part.trans top), Lua.Number.ofRat_of_abs_lt (product.trans top),
    Lua.Number.toUInt32_of_floor seconds, Lua.Number.toUInt32_of_floor micros, data, origLen]

/-- Calls that are made for records write those records. -/
theorem map_record_eq {records : List PcapRecord} {calls : List (WriteCall Lua.Number)}
    (written : List.Forall₂ (PcapRecord.WrittenBy startTime) records calls) :
    calls.map (WriteCall.record startTime) = records := by
  induction written with
  | nil => rfl
  | cons first _ ih => rw [map_cons, first.record_eq, ih]

/-- A packet that is written whole, and one of which 24 bytes are missing. -/
def twoWrites : List (WriteCall Lua.Number) :=
  [⟨.finite (3 / 2), List.replicate 20 7, none⟩, ⟨.finite (5 / 2 ^ 21), List.replicate 16 9, some 40⟩]

def twoRecords : List PcapRecord :=
  [⟨1001, 500000, List.replicate 20 7, 20⟩, ⟨1000, 2, List.replicate 16 9, 40⟩]

/-- A packet that is written three microseconds behind a full second. -/
def threeMicros : WriteCall Lua.Number := ⟨.ofRat (3 / 10 ^ 6), List.replicate 16 7, none⟩

end MoonGen
