import MoonGen.Lib.Double
import MoonGen.Lib.Machine
import MoonGen.Lib.Memory

namespace MoonGen

/-- What a reader does to the mapped file and to its count of `remaining` bytes. It may also
read a buffer through a null pointer. -/
inductive Access where
  | read (start len : Nat)
  | consume (remaining used : UInt64)
  | readNull
  deriving DecidableEq

/-- The buffer a packet is read to. -/
structure PcapBuf where
  pktLen : UInt32
  dataLen : UInt16
  udata64 : UInt64
  data : List UInt8
  deriving DecidableEq

def pcapHdrSize : Nat := 24

def copyLen (mempoolBufSize inclLen : UInt32) : UInt32 :=
  if mempoolBufSize - 128 < inclLen then mempoolBufSize - 128 else inclLen

def zeroFillLen (mempoolBufSize inclLen origLen : UInt32) : UInt32 :=
  min (mempoolBufSize - copyLen mempoolBufSize inclLen - 128) (origLen - inclLen)

/-- `libmoon_read_pcap` on the record at `src`. `alloc` tells whether the mempool
has a buffer. -/
def libmoonReadPcap (mem : Memory) (src : Nat) (remaining : UInt64) (mempoolBufSize : UInt32) (alloc : Bool) :
    Option PcapBuf × List Access :=
  let inclLen := mem.u32 (src + 8)
  if remaining ≤ inclLen.toUInt64 then (none, [.read (src + 8) 4])
  else
    let copyLen := copyLen mempoolBufSize inclLen
    let zeroFillLen := zeroFillLen mempoolBufSize inclLen (mem.u32 (src + 12))
    let lengths := [.read (src + 8) 4, .read (src + 12) 4]
    if alloc then
      (some
        { pktLen := inclLen
          dataLen := (copyLen + zeroFillLen).toUInt16
          udata64 := (mem.u32 src).toUInt64 * 1000000 + (mem.u32 (src + 4)).toUInt64
          data := mem.slice (src + 16) copyLen.toNat ++ List.replicate zeroFillLen.toNat 0 },
        lengths ++ [.read src 4, .read (src + 4) 4, .read (src + 16) copyLen.toNat])
    else (none, lengths)

/-- The loop of `libmoon_read_pcap_batch` from buffer `i` on, with `src` for the
address `pcap + offset`. -/
def libmoonReadPcapBatch (mem : Memory) (mempoolBufSize : UInt32) (alloc : Nat → Bool) :
    (numBufs i src : Nat) → (remaining : UInt64) → List PcapBuf × List Access
  | 0, _, _, _ => ([], [])
  | numBufs + 1, i, src, remaining =>
    match libmoonReadPcap mem src remaining mempoolBufSize (alloc i) with
    | (none, log) => ([], log)
    | (some buf, log) =>
      let used := (mem.u32 (src + 8)).toUInt64 + 16
      let rest := libmoonReadPcapBatch mem mempoolBufSize alloc numBufs (i + 1) (src + used.toNat) (remaining - used)
      (buf :: rest.1, log ++ [.read (src + 8) 4, .consume remaining used] ++ rest.2)

/-- What a call of the reader returns, and where it leaves the reader. -/
structure ReadResult where
  bufs : List PcapBuf
  offset : Nat
  log : List Access

/-- Chained buffers are not supported, so that a packet ends with its buffer. -/
def PcapBuf.unchained (buf : PcapBuf) : PcapBuf := { buf with pktLen := buf.dataLen.toUInt32 }

/-- `reader:readSingle` on a mapping of `size` bytes. A null pointer counts as true, so that
the lengths of a buffer are read that is not there. -/
def readSingle (mem : Memory) (size : Nat) (mempoolBufSize : UInt32) (alloc : Bool) (offset : Nat) : ReadResult :=
  let fileRemaining : Int := size - offset
  if fileRemaining < 32 then ⟨[], offset, []⟩
  else
    match libmoonReadPcap mem offset (.ofNat fileRemaining.toNat) mempoolBufSize alloc with
    | (none, log) => ⟨[], offset, log ++ [.readNull]⟩
    | (some buf, log) => ⟨[buf.unchained], offset + buf.pktLen.toNat + 16, log⟩

/-- `reader:read` into an array of `numBufs` buffers. -/
def readBatch (mem : Memory) (size : Nat) (mempoolBufSize : UInt32) (numBufs : Nat) (alloc : Nat → Bool)
    (offset : Nat) : ReadResult :=
  let fileRemaining : Int := size - offset
  if fileRemaining < 32 then ⟨[], offset, []⟩
  else
    let (bufs, log) := libmoonReadPcapBatch mem mempoolBufSize alloc numBufs 0 offset (.ofNat fileRemaining.toNat)
    ⟨bufs.map PcapBuf.unchained, bufs.foldl (fun offset buf => offset + buf.pktLen.toNat + 16) offset, log⟩

inductive ReadCall where
  | readSingle (alloc : Bool)
  | read (numBufs : Nat) (alloc : Nat → Bool)

def ReadCall.run (mem : Memory) (size : Nat) (mempoolBufSize : UInt32) (offset : Nat) : ReadCall → ReadResult
  | .readSingle alloc => MoonGen.readSingle mem size mempoolBufSize alloc offset
  | .read numBufs alloc => readBatch mem size mempoolBufSize numBufs alloc offset

/-- The bytes that `writeHeader` stores. -/
def pcapHdr : List UInt8 :=
  Memory.leBytes 4 0xa1b2c3d4 ++ (Memory.leBytes 2 2 ++ (Memory.leBytes 2 4 ++ (Memory.leBytes 4 0 ++
    (Memory.leBytes 4 0 ++ (Memory.leBytes 4 0x40000 ++ Memory.leBytes 4 1)))))

/-- `readHeader`: the offset behind the header, or the message of the failure. -/
def readHeader (mem : Memory) : Except String Nat :=
  if mem.u32 0 = 0xd4c3b2a1 then .error "big endian pcaps are not supported"
  else if mem.u32 0 ≠ 0xa1b2c3d4 then .error "not a pcap file"
  else if mem.u16 4 ≠ 2 ∨ mem.u16 6 ≠ 4 then .error "unsupported pcap version"
  else if mem.u32 20 ≠ 1 then .error "unsupported link layer type"
  else .ok pcapHdrSize

structure PcapRecord where
  tsSec : UInt32
  tsUsec : UInt32
  data : List UInt8
  origLen : UInt32
  deriving DecidableEq

/-- The bytes that `libmoon_write_pcap` stores. -/
def PcapRecord.bytes (r : PcapRecord) : List UInt8 :=
  Memory.leBytes 4 r.tsSec.toNat ++ (Memory.leBytes 4 r.tsUsec.toNat ++
    (Memory.leBytes 4 (UInt32.ofNat r.data.length).toNat ++ (Memory.leBytes 4 r.origLen.toNat ++ r.data)))

/-- Stores bytes in a mapping, unless that goes past its end. -/
def storeBytes (mapping : List UInt8) (dst : Nat) (bytes : List UInt8) : Option (List UInt8) :=
  if dst + bytes.length ≤ mapping.length then
    some (mapping.take dst ++ (bytes ++ mapping.drop (dst + bytes.length)))
  else none

/-- A writer and the bytes of its mapping, whose number is its `size`. -/
structure PcapWriter (D : Type) where
  mapping : List UInt8
  offset : Nat
  startTime : D

/-- The arguments of `writer:write`. -/
structure WriteCall (D : Type) where
  timestamp : D
  data : List UInt8
  origLen : Option UInt32

section
variable {D : Type} [Double D]

/-- The record that a call makes, with the time in seconds and microseconds. -/
def WriteCall.record (startTime : D) (c : WriteCall D) : PcapRecord :=
  let time := startTime + c.timestamp
  let timeSec := Double.floor time
  let timeMicros := (time - timeSec) * Double.ofUInt64 1000000
  { tsSec := Double.toUInt32 time
    tsUsec := Double.toUInt32 timeMicros
    data := c.data
    origLen := c.origLen.getD (.ofNat c.data.length) }

def newWriter (initialFileSize : Nat) (startTime : D) : Option (PcapWriter D) :=
  (storeBytes (List.replicate initialFileSize 0) 0 pcapHdr).map fun mapping =>
    { mapping, offset := pcapHdrSize, startTime }

namespace PcapWriter

def resize (w : PcapWriter D) (size : Nat) : PcapWriter D :=
  { w with mapping := w.mapping ++ List.replicate (size - w.mapping.length) 0 }

/-- The first statement of `writer:write`. -/
def makeRoom (w : PcapWriter D) (len : Nat) : PcapWriter D :=
  if w.mapping.length ≤ w.offset + len + 16 then w.resize (w.mapping.length * 2) else w

def write (w : PcapWriter D) (c : WriteCall D) : Option (PcapWriter D) :=
  let w := w.makeRoom c.data.length
  (storeBytes w.mapping w.offset (c.record w.startTime).bytes).map fun mapping =>
    { w with mapping, offset := w.offset + c.data.length + 16 }

/-- `writer:close`: the file, which is cut at the offset. -/
def close (w : PcapWriter D) : List UInt8 := w.mapping.take w.offset

end PcapWriter

/-- The file that a writer leaves after one call for each packet. -/
def writeCapture (initialFileSize : Nat) (startTime : D) (calls : List (WriteCall D)) : Option (List UInt8) := do
  let w ← newWriter initialFileSize startTime
  let w ← calls.foldlM PcapWriter.write w
  some w.close

end

/-- The bytes of a record with its header, as `offset` and `remaining` count them. -/
theorem toNat_add_recHdr (inclLen : UInt32) : (inclLen.toUInt64 + 16).toNat = inclLen.toNat + 16 := by
  have small := inclLen.toNat_lt
  rw [UInt64.toNat_add, UInt32.toNat_toUInt64]
  change (inclLen.toNat + 16) % 2 ^ 64 = _
  omega

theorem toNat_min (a b : UInt32) : (min a b).toNat = min a.toNat b.toNat := by
  change (if a ≤ b then a else b).toNat = _
  split
  · rename_i le
    rw [UInt32.le_iff_toNat_le] at le
    omega
  · rename_i gt
    rw [UInt32.le_iff_toNat_le] at gt
    omega

section
variable {mempoolBufSize inclLen origLen : UInt32} (room : 128 ≤ mempoolBufSize)
include room

theorem toNat_sub_headroom : (mempoolBufSize - 128).toNat = mempoolBufSize.toNat - 128 := by
  rw [UInt32.toNat_sub_of_le _ _ room]
  rfl

theorem toNat_copyLen : (copyLen mempoolBufSize inclLen).toNat = min inclLen.toNat (mempoolBufSize.toNat - 128) := by
  unfold copyLen
  split
  · rename_i cut
    rw [UInt32.lt_iff_toNat_lt, toNat_sub_headroom room] at cut
    rw [toNat_sub_headroom room]
    omega
  · rename_i whole
    rw [UInt32.lt_iff_toNat_lt, toNat_sub_headroom room] at whole
    omega

/-- What the copy leaves free in the buffer. -/
theorem toNat_sub_copyLen : (mempoolBufSize - copyLen mempoolBufSize inclLen - 128).toNat =
    mempoolBufSize.toNat - 128 - min inclLen.toNat (mempoolBufSize.toNat - 128) := by
  have copy : (copyLen mempoolBufSize inclLen).toNat = min inclLen.toNat (mempoolBufSize.toNat - 128) :=
    toNat_copyLen room
  rw [UInt32.le_iff_toNat_le] at room
  have small : copyLen mempoolBufSize inclLen ≤ mempoolBufSize := by
    rw [UInt32.le_iff_toNat_le]
    omega
  have first := UInt32.toNat_sub_of_le _ _ small
  rw [UInt32.toNat_sub_of_le, first, copy]
  · change mempoolBufSize.toNat - _ - 128 = _
    omega
  · rw [UInt32.le_iff_toNat_le, first]
    change 128 ≤ _ at room ⊢
    omega

/-- The filling makes up the original length, as far as the buffer allows. -/
theorem toNat_copyLen_add_zeroFillLen (order : inclLen ≤ origLen) :
    (copyLen mempoolBufSize inclLen).toNat + (zeroFillLen mempoolBufSize inclLen origLen).toNat =
      min origLen.toNat (mempoolBufSize.toNat - 128) := by
  have copy : (copyLen mempoolBufSize inclLen).toNat = min inclLen.toNat (mempoolBufSize.toNat - 128) :=
    toNat_copyLen room
  have missing := UInt32.toNat_sub_of_le _ _ order
  rw [UInt32.le_iff_toNat_le] at order
  rw [zeroFillLen, toNat_min, toNat_sub_copyLen room, missing]
  omega

end

end MoonGen
