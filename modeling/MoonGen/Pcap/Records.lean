import MoonGen.Pcap.Capture

namespace MoonGen

open List

def recordBytes (records : List PcapRecord) : List UInt8 := records.flatMap PcapRecord.bytes

def ReadCall.requested : ReadCall → Nat
  | .readSingle _ => 1
  | .read numBufs _ => numBufs

def ReadCall.Allocates : ReadCall → Prop
  | .readSingle alloc => alloc = true
  | .read numBufs alloc => ∀ i < numBufs, alloc i = true

/-- The buffer that the record at an address is read to. -/
def pcapBufAt (mem : Memory) (mempoolBufSize : UInt32) (src : Nat) : PcapBuf :=
  let copyLen := copyLen mempoolBufSize (mem.u32 (src + 8))
  let zeroFillLen := zeroFillLen mempoolBufSize (mem.u32 (src + 8)) (mem.u32 (src + 12))
  { pktLen := mem.u32 (src + 8)
    dataLen := (copyLen + zeroFillLen).toUInt16
    udata64 := (mem.u32 src).toUInt64 * 1000000 + (mem.u32 (src + 4)).toUInt64
    data := mem.slice (src + 16) copyLen.toNat ++ List.replicate zeroFillLen.toNat 0 }

/-- The buffers for records that lie one behind the other. -/
def recordBufs (mem : Memory) (mempoolBufSize : UInt32) : (src : Nat) → List PcapRecord → List PcapBuf
  | _, [] => []
  | src, r :: records =>
    pcapBufAt mem mempoolBufSize src :: recordBufs mem mempoolBufSize (src + r.bytes.length) records

theorem PcapRecord.length_bytes (r : PcapRecord) : r.bytes.length = r.data.length + 16 := by
  simp only [PcapRecord.bytes, length_append, Memory.length_leBytes]
  omega

@[simp] theorem recordBytes_nil : recordBytes [] = [] := rfl

theorem recordBytes_append (front back : List PcapRecord) :
    recordBytes (front ++ back) = recordBytes front ++ recordBytes back :=
  flatMap_append

@[simp] theorem recordBytes_cons (r : PcapRecord) (records : List PcapRecord) :
    recordBytes (r :: records) = r.bytes ++ recordBytes records := rfl

theorem length_recordBytes (records : List PcapRecord) :
    (recordBytes records).length = (records.map fun r => r.data.length + 16).sum := by
  induction records with
  | nil => rfl
  | cons r records ih => rw [recordBytes_cons, length_append, ih, r.length_bytes, map_cons, sum_cons]

section
variable {mem : Memory} {size src : Nat} {mempoolBufSize : UInt32} {r : PcapRecord} {records : List PcapRecord}

@[simp] theorem length_recordBufs : (recordBufs mem mempoolBufSize src records).length = records.length := by
  induction records generalizing src with
  | nil => rfl
  | cons r records ih => rw [recordBufs, length_cons, ih, length_cons]

theorem take_recordBufs (n : Nat) : (recordBufs mem mempoolBufSize src records).take n =
    recordBufs mem mempoolBufSize src (records.take n) := by
  induction n generalizing src records with
  | zero => rfl
  | succ n ih =>
    cases records with
    | nil => rfl
    | cons r records => rw [recordBufs, take_succ_cons, ih, take_succ_cons, recordBufs]

theorem drop_recordBufs (n : Nat) : (recordBufs mem mempoolBufSize src records).drop n =
    recordBufs mem mempoolBufSize (src + (recordBytes (records.take n)).length) (records.drop n) := by
  induction n generalizing src records with
  | zero => rfl
  | succ n ih =>
    cases records with
    | nil => rfl
    | cons r records =>
      rw [recordBufs, drop_succ_cons, ih, take_succ_cons, recordBytes_cons, length_append,
        Nat.add_assoc, drop_succ_cons]

/-- What the memory holds where a record starts. -/
structure RecordAt (mem : Memory) (src : Nat) (r : PcapRecord) : Prop where
  tsSec : mem.u32 src = r.tsSec
  tsUsec : mem.u32 (src + 4) = r.tsUsec
  inclLen : (mem.u32 (src + 8)).toNat = r.data.length
  origLen : mem.u32 (src + 12) = r.origLen
  data : mem.Holds (src + 16) r.data

theorem RecordAt.of_holds (small : r.data.length < 2 ^ 32) (holds : mem.Holds src r.bytes) : RecordAt mem src r := by
  simp only [PcapRecord.bytes, Memory.holds_append, Memory.length_leBytes] at holds
  obtain ⟨sec, usec, incl, orig, data⟩ := holds
  refine ⟨Memory.u32_of_holds sec, Memory.u32_of_holds usec, ?_, Memory.u32_of_holds orig, data⟩
  rw [Memory.u32_of_holds incl]
  exact UInt32.toNat_ofNat_of_lt' small

/-- A record that the rest of the file can hold is read. -/
theorem libmoonReadPcap_of_lt {remaining : UInt64} (more : (mem.u32 (src + 8)).toNat < remaining.toNat) :
    ∃ log, libmoonReadPcap mem src remaining mempoolBufSize true = (some (pcapBufAt mem mempoolBufSize src), log) := by
  have record : ¬remaining ≤ (mem.u32 (src + 8)).toUInt64 := by
    rw [UInt64.le_iff_toNat_le, UInt32.toNat_toUInt64]
    omega
  rw [libmoonReadPcap, if_neg record, if_pos rfl]
  exact ⟨_, rfl⟩

theorem libmoonReadPcap_record (small : r.data.length < 2 ^ 32) (holds : mem.Holds src r.bytes) {remaining : UInt64}
    (fits : r.bytes.length ≤ remaining.toNat) :
    (mem.u32 (src + 8)).toNat + 16 = r.bytes.length ∧
      ∃ log, libmoonReadPcap mem src remaining mempoolBufSize true = (some (pcapBufAt mem mempoolBufSize src), log) := by
  have length : (mem.u32 (src + 8)).toNat + 16 = r.bytes.length := by
    rw [(RecordAt.of_holds small holds).inclLen, r.length_bytes]
  exact ⟨length, libmoonReadPcap_of_lt (by omega)⟩

/-- A reader in front of the complete records that are left of its file. -/
structure Ahead (mem : Memory) (size offset : Nat) (records : List PcapRecord) : Prop where
  complete : ∀ r ∈ records, r.data.length < 2 ^ 32
  holds : mem.Holds offset (recordBytes records)
  left : offset + (recordBytes records).length = size

theorem Ahead.drop {offset : Nat} (ahead : Ahead mem size offset records) (n : Nat) :
    Ahead mem size (offset + (recordBytes (records.take n)).length) (records.drop n) := by
  obtain ⟨complete, holds, left⟩ := ahead
  rw [← take_append_drop n records, recordBytes_append] at holds left
  rw [length_append] at left
  exact ⟨fun r member => complete r (mem_of_mem_drop member), (Memory.holds_append.mp holds).2, by omega⟩

/-- The loop finds one record after the other, and at the end of the file none,
whatever is behind it. -/
theorem libmoonReadPcapBatch_bufs (complete : ∀ r ∈ records, r.data.length < 2 ^ 32)
    (holds : mem.Holds src (recordBytes records)) {remaining : UInt64}
    (left : remaining.toNat = (recordBytes records).length) {alloc : Nat → Bool} {numBufs i : Nat}
    (allocates : ∀ k < numBufs, alloc (i + k) = true) :
    (libmoonReadPcapBatch mem mempoolBufSize alloc numBufs i src remaining).1 =
        recordBufs mem mempoolBufSize src (records.take numBufs) ∧
      (recordBufs mem mempoolBufSize src (records.take numBufs)).foldl
          (fun offset buf => offset + buf.pktLen.toNat + 16) src =
        src + (recordBytes (records.take numBufs)).length := by
  induction numBufs generalizing records src remaining i with
  | zero => exact ⟨rfl, rfl⟩
  | succ numBufs ih =>
    cases records with
    | nil =>
      have past : remaining ≤ (mem.u32 (src + 8)).toUInt64 := by
        rw [UInt64.le_iff_toNat_le, left]
        exact Nat.zero_le _
      rw [libmoonReadPcapBatch, libmoonReadPcap, if_pos past]
      exact ⟨rfl, rfl⟩
    | cons r records =>
      obtain ⟨here, behind⟩ := Memory.holds_append.mp holds
      rw [recordBytes_cons, length_append] at left
      obtain ⟨length, log, read⟩ :=
        @libmoonReadPcap_record mem src mempoolBufSize r (complete r mem_cons_self) here remaining (by omega)
      have used : ((mem.u32 (src + 8)).toUInt64 + 16).toNat = r.bytes.length := by
        rw [toNat_add_recHdr, length]
      have fits : (mem.u32 (src + 8)).toUInt64 + 16 ≤ remaining := by
        rw [UInt64.le_iff_toNat_le, used]
        omega
      have rest : (remaining - ((mem.u32 (src + 8)).toUInt64 + 16)).toNat = (recordBytes records).length := by
        rw [UInt64.toNat_sub_of_le _ _ fits, used]
        omega
      have later : ∀ k < numBufs, alloc (i + 1 + k) = true := by
        intro k below
        rw [Nat.add_assoc, Nat.add_comm 1]
        exact allocates (k + 1) (by omega)
      obtain ⟨bufs, offset⟩ := ih (fun r member => complete r (mem_cons_of_mem _ member)) behind rest later
      have got : alloc i = true := allocates 0 (by omega)
      have step : src + (pcapBufAt mem mempoolBufSize src).pktLen.toNat + 16 = src + r.bytes.length := by
        rw [← length, Nat.add_assoc]
        rfl
      rw [libmoonReadPcapBatch, got, read, take_succ_cons, recordBufs]
      refine ⟨?_, ?_⟩
      · dsimp only
        rw [used, bufs]
      · rw [foldl_cons, step, offset, recordBytes_cons, length_append, Nat.add_assoc]

section
variable {offset : Nat} (ahead : Ahead mem size offset records)
include ahead

/-- A call with less than 32 bytes left returns nothing. -/
theorem Ahead.run_of_few (few : (recordBytes records).length < 32) (call : ReadCall) :
    (call.run mem size mempoolBufSize offset).bufs = [] ∧ (call.run mem size mempoolBufSize offset).offset = offset := by
  have short : (size : Int) - offset < 32 := by
    have left := ahead.left
    omega
  cases call <;> simp [ReadCall.run, readSingle, readBatch, short]

/-- Any other call returns the next packets, as many as it asks for or all that
are left. -/
theorem Ahead.run (offT : size < 2 ^ 63) (many : 32 ≤ (recordBytes records).length) {call : ReadCall}
    (allocates : call.Allocates) :
    (call.run mem size mempoolBufSize offset).bufs =
        (recordBufs mem mempoolBufSize offset (records.take call.requested)).map PcapBuf.unchained ∧
      (call.run mem size mempoolBufSize offset).offset =
        offset + (recordBytes (records.take call.requested)).length := by
  have left := ahead.left
  have long : ¬(size : Int) - offset < 32 := by omega
  have remaining : ((size : Int) - offset).toNat = (recordBytes records).length := by omega
  have words : (UInt64.ofNat (recordBytes records).length).toNat = (recordBytes records).length :=
    UInt64.toNat_ofNat_of_lt' (by change _ < 2 ^ 64; omega)
  cases call with
  | readSingle alloc =>
    have got : alloc = true := allocates
    cases records with
    | nil => simp at many
    | cons r rest =>
      have here := (Memory.holds_append.mp ahead.holds).1
      have fits : r.bytes.length ≤ (UInt64.ofNat (recordBytes (r :: rest)).length).toNat := by
        rw [words, recordBytes_cons, length_append]
        omega
      obtain ⟨length, log, read⟩ :=
        @libmoonReadPcap_record mem offset mempoolBufSize r (ahead.complete r mem_cons_self) here _ fits
      simp only [ReadCall.run, readSingle, long, if_false, remaining, got, read, ReadCall.requested]
      refine ⟨rfl, ?_⟩
      change offset + (mem.u32 (offset + 8)).toNat + 16 = offset + (r.bytes ++ []).length
      rw [append_nil, ← length, Nat.add_assoc]
  | read numBufs alloc =>
    have every : ∀ k < numBufs, alloc (0 + k) = true := by
      intro k below
      rw [Nat.zero_add]
      exact allocates k below
    obtain ⟨bufs, next⟩ := @libmoonReadPcapBatch_bufs mem offset mempoolBufSize records ahead.complete ahead.holds _
      words alloc numBufs 0 every
    simp only [ReadCall.run, readBatch, long, if_false, remaining, ReadCall.requested]
    rw [bufs, next]
    exact ⟨rfl, rfl⟩

end

end

end MoonGen
