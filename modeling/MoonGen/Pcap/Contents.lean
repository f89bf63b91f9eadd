import MoonGen.Pcap.Records

namespace MoonGen

/-- A buffer holds the record at an address: the data bytes that fit behind the
headroom, then zeros up to the longer of the two lengths in the header, and
nothing is written behind the end. -/
structure PcapBuf.HoldsRecord (buf : PcapBuf) (mem : Memory) (src : Nat) (mempoolBufSize : UInt32) : Prop where
  data : buf.data = mem.slice (src + 16) (min (mem.u32 (src + 8)).toNat (mempoolBufSize.toNat - 128)) ++
    List.replicate (buf.dataLen.toNat - min (mem.u32 (src + 8)).toNat (mempoolBufSize.toNat - 128)) 0
  dataLen : buf.dataLen.toNat =
    min (max (mem.u32 (src + 8)).toNat (mem.u32 (src + 12)).toNat) (mempoolBufSize.toNat - 128)
  within : buf.data.length ≤ mempoolBufSize.toNat - 128

section
variable {mempoolBufSize inclLen origLen : UInt32} (room : 128 ≤ mempoolBufSize)
  (word : mempoolBufSize.toNat ≤ 65535)
include room word

/-- When the original length is the smaller one, the difference wraps and the rest
of the buffer is filled. -/
theorem toNat_copyLen_add_zeroFillLen_of_lt (order : origLen < inclLen) :
    (copyLen mempoolBufSize inclLen).toNat + (zeroFillLen mempoolBufSize inclLen origLen).toNat =
      mempoolBufSize.toNat - 128 := by
  have copy : (copyLen mempoolBufSize inclLen).toNat = min inclLen.toNat (mempoolBufSize.toNat - 128) :=
    toNat_copyLen room
  have wrapped : (origLen - inclLen).toNat = 2 ^ 32 - inclLen.toNat + origLen.toNat := by
    have bound := inclLen.toNat_lt
    rw [UInt32.lt_iff_toNat_lt] at order
    rw [UInt32.toNat_sub]
    change (2 ^ 32 - inclLen.toNat + origLen.toNat) % 2 ^ 32 = _
    omega
  rw [zeroFillLen, toNat_min, toNat_sub_copyLen room, wrapped, copy]
  rw [UInt32.lt_iff_toNat_lt] at order
  omega

theorem toNat_copyLen_add_zeroFillLen_le :
    (copyLen mempoolBufSize inclLen).toNat + (zeroFillLen mempoolBufSize inclLen origLen).toNat ≤
      mempoolBufSize.toNat - 128 := by
  by_cases order : inclLen ≤ origLen
  · rw [toNat_copyLen_add_zeroFillLen room order]
    exact Nat.min_le_right _ _
  · exact (toNat_copyLen_add_zeroFillLen_of_lt room word (UInt32.not_le.mp order)).le

/-- The two lengths together are what the header asks for, unless the original
length is the smaller one and there is room behind the data. -/
theorem toNat_copyLen_add_zeroFillLen_iff :
    (copyLen mempoolBufSize inclLen).toNat + (zeroFillLen mempoolBufSize inclLen origLen).toNat =
        min (max inclLen.toNat origLen.toNat) (mempoolBufSize.toNat - 128) ↔
      inclLen ≤ origLen ∨ mempoolBufSize.toNat - 128 ≤ inclLen.toNat := by
  by_cases order : inclLen ≤ origLen
  · rw [toNat_copyLen_add_zeroFillLen room order]
    simp only [order, true_or, iff_true]
    rw [UInt32.le_iff_toNat_le] at order
    omega
  · rw [toNat_copyLen_add_zeroFillLen_of_lt room word (UInt32.not_le.mp order)]
    rw [UInt32.le_iff_toNat_le] at order ⊢
    omega

end

/-- For a record that lies in the file a buffer is filled, within its bounds, with
the data and zeros. Its `data_len` is the right one exactly when `incl_len` is
not above `orig_len` or the data fills the buffer. -/
theorem libmoonReadPcap_contents_iff (mem : Memory) (src : Nat) (remaining : UInt64) (mempoolBufSize : UInt32)
    (room : 128 ≤ mempoolBufSize) (word : mempoolBufSize.toNat ≤ 65535)
    (inside : (mem.u32 (src + 8)).toNat + 16 ≤ remaining.toNat) :
    ∃ buf log, libmoonReadPcap mem src remaining mempoolBufSize true = (some buf, log) ∧
      (buf.HoldsRecord mem src mempoolBufSize ↔
        mem.u32 (src + 8) ≤ mem.u32 (src + 12) ∨ mempoolBufSize.toNat - 128 ≤ (mem.u32 (src + 8)).toNat) := by
  obtain ⟨log, read⟩ := @libmoonReadPcap_of_lt mem src mempoolBufSize remaining (by omega)
  have copy : (copyLen mempoolBufSize (mem.u32 (src + 8))).toNat = _ := toNat_copyLen room
  have total := @toNat_copyLen_add_zeroFillLen_le mempoolBufSize (mem.u32 (src + 8)) (mem.u32 (src + 12)) room word
  have exact := @toNat_copyLen_add_zeroFillLen_iff mempoolBufSize (mem.u32 (src + 8)) (mem.u32 (src + 12)) room word
  have dataLen : (copyLen mempoolBufSize (mem.u32 (src + 8)) +
      zeroFillLen mempoolBufSize (mem.u32 (src + 8)) (mem.u32 (src + 12))).toUInt16.toNat =
      (copyLen mempoolBufSize (mem.u32 (src + 8))).toNat +
        (zeroFillLen mempoolBufSize (mem.u32 (src + 8)) (mem.u32 (src + 12))).toNat := by
    rw [UInt32.toNat_toUInt16, UInt32.toNat_add]
    omega
  refine ⟨_, log, read, ?_⟩
  rw [← exact, ← dataLen]
  refine ⟨fun holds => holds.dataLen, fun right => ⟨?_, right, ?_⟩⟩
  · dsimp only [pcapBufAt]
    rw [dataLen, copy, Nat.add_sub_cancel_left]
  · dsimp only [pcapBufAt]
    rw [List.length_append, Memory.length_slice, List.length_replicate]
    exact total

/-- A record whose header claims an original length below the saved one. -/
def shrunkRecord : PcapRecord := ⟨0, 0, List.replicate 20 7, 10⟩

theorem libmoonReadPcap_contents_whole : ∃ buf log,
    libmoonReadPcap (.ofFile { shrunkRecord with origLen := 30 }.bytes fun _ => 0) 0 36 2048 true = (some buf, log) ∧
      buf.HoldsRecord (.ofFile { shrunkRecord with origLen := 30 }.bytes fun _ => 0) 0 2048 := by
  obtain ⟨buf, log, read, holds⟩ := libmoonReadPcap_contents_iff
    (.ofFile { shrunkRecord with origLen := 30 }.bytes fun _ => 0) 0 36 2048 (by decide) (by decide) (by decide +kernel)
  exact ⟨buf, log, read, holds.mpr (.inl (by decide +kernel))⟩

/-- Of 20 saved bytes and an original length of 10 becomes a packet of 1920. -/
theorem libmoonReadPcap_contents_filled : ∃ buf log,
    libmoonReadPcap (.ofFile shrunkRecord.bytes fun _ => 0) 0 36 2048 true = (some buf, log) ∧
      buf.dataLen = 1920 ∧ ¬buf.HoldsRecord (.ofFile shrunkRecord.bytes fun _ => 0) 0 2048 := by
  have lengths : (libmoonReadPcap (.ofFile shrunkRecord.bytes fun _ => 0) 0 36 2048 true).1.map PcapBuf.dataLen =
      some 1920 := by
    decide +kernel
  obtain ⟨buf, read, dataLen⟩ := Option.map_eq_some_iff.mp lengths
  refine ⟨buf, _, Prod.ext read rfl, dataLen, fun holds => ?_⟩
  have claimed := holds.dataLen
  rw [dataLen] at claimed
  revert claimed
  decide +kernel

end MoonGen
