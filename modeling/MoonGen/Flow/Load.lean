import Mathlib.Tactic.Ring

namespace MoonGen

open List

/-- An mbuf in the hands of the send queue, and whether its checksums were
offloaded before. -/
structure Handed where
  mbuf : Nat
  offloaded : Bool
  deriving DecidableEq

/-- `loadThread` in its loop. Mbufs are numbered in the order of their allocation. -/
structure Load where
  data : Int
  allocated : Nat
  offloaded : List Nat
  current : Nat
  handed : List Handed
  freed : List Nat
  deriving DecidableEq

namespace Load

/-- The mbufs that the next `bufs:alloc` fills the array with. -/
def bufs (s : Load) (size : Nat) : List Nat := List.range' s.allocated size

def alloc (s : Load) (size : Nat) : Load := { s with allocated := s.allocated + size }

/-- `counter:countPacket` for every packet of the array. -/
def countPackets (s : Load) (bufs : List Nat) : Load := { s with current := s.current + bufs.length }

def offloadUdpChecksums (s : Load) (bufs : List Nat) : Load := { s with offloaded := s.offloaded ++ bufs }

def sendN (s : Load) (bufs : List Nat) (n : Nat) : Load :=
  { s with handed := s.handed ++ (bufs.take n).map fun m => ⟨m, m ∈ s.offloaded⟩ }

def send (s : Load) (bufs : List Nat) : Load := s.sendN bufs bufs.length

/-- One turn of the loop up to its test of the limit: the array is filled, the
packets of a dynamic flow are updated and counted. -/
def fill (dynamic : Bool) (size : Nat) (s : Load) : Load :=
  let t := s.alloc size
  { (if dynamic then t.countPackets (s.bufs size) else t) with data := s.data - size }

theorem data_fill (dynamic : Bool) (size : Nat) (s : Load) : (s.fill dynamic size).data = s.data - size := rfl

/-- The loop, which nothing but the data limit stops. -/
def loop (dynamic : Bool) (size : Nat) (sized : 0 < size) (s : Load) : Load :=
  if (s.fill dynamic size).data ≤ 0 then
    (s.fill dynamic size).sendN (s.bufs size) (size + (s.fill dynamic size).data).toNat
  else loop dynamic size sized (((s.fill dynamic size).offloadUdpChecksums (s.bufs size)).send (s.bufs size))
termination_by s.data.toNat
decreasing_by
  rename_i more
  simp only [send, sendN, offloadUdpChecksums, data_fill] at more ⊢
  omega

end Load

def loadThread (dynamic : Bool) (size : Nat) (sized : 0 < size) (dataLimit : Nat) : Load :=
  Load.loop dynamic size sized ⟨dataLimit, 0, [], 0, [], []⟩

namespace Load

/-- The loop after some full batches. -/
def full (dynamic : Bool) (size limit j : Nat) : Load where
  data := limit - (j * size : Nat)
  allocated := j * size
  offloaded := List.range (j * size)
  current := if dynamic then j * size else 0
  handed := (List.range (j * size)).map fun m => ⟨m, true⟩
  freed := []

/-- The loop after the batch that reaches the limit. -/
def last (dynamic : Bool) (size limit j : Nat) : Load where
  data := limit - ((j + 1) * size : Nat)
  allocated := (j + 1) * size
  offloaded := List.range (j * size)
  current := if dynamic then (j + 1) * size else 0
  handed := (List.range limit).map fun m => ⟨m, m < j * size⟩
  freed := []

variable {dynamic : Bool} {size limit j : Nat}

theorem bufs_full : (full dynamic size limit j).bufs size = List.range' (j * size) size := rfl

theorem range_succ_mul : List.range (j * size) ++ List.range' (j * size) size = List.range ((j + 1) * size) := by
  rw [Nat.succ_mul, range_eq_range', range_eq_range', ← range'_append_1, Nat.zero_add]

theorem fill_full : (full dynamic size limit j).fill dynamic size = { full dynamic size limit j with
    data := limit - ((j + 1) * size : Nat)
    allocated := (j + 1) * size
    current := if dynamic then (j + 1) * size else 0 } := by
  have more : (j + 1) * size = j * size + size := Nat.succ_mul j size
  have rest : (limit : Int) - (j * size : Nat) - size = limit - (j * size + size : Nat) := by push_cast; ring
  cases dynamic <;> simp only [fill, alloc, countPackets, bufs, full, more, rest, length_range'] <;> rfl

theorem send_full : (((full dynamic size limit j).fill dynamic size).offloadUdpChecksums
    (List.range' (j * size) size)).send (List.range' (j * size) size) = full dynamic size limit (j + 1) := by
  have batch : (List.range' (j * size) size).map (fun m => (⟨m, m ∈ List.range ((j + 1) * size)⟩ : Handed)) =
      (List.range' (j * size) size).map fun m => ⟨m, true⟩ := by
    refine map_congr_left fun m member => ?_
    rw [← range_succ_mul]
    simp [member]
  rw [fill_full]
  simp only [offloadUdpChecksums, send, sendN, full, range_succ_mul, take_length, batch]
  rw [← map_append, range_succ_mul]

/-- The packets of the batch that reaches the limit are sent without offloading. -/
theorem sendN_full (below : j * size < limit) (reached : limit ≤ (j + 1) * size) :
    ((full dynamic size limit j).fill dynamic size).sendN (List.range' (j * size) size)
      (size + ((full dynamic size limit j).fill dynamic size).data).toNat = last dynamic size limit j := by
  have more : (j + 1) * size = j * size + size := Nat.succ_mul j size
  have number : (size + ((full dynamic size limit j).fill dynamic size).data).toNat = limit - j * size := by
    rw [fill_full]
    dsimp only
    omega
  have taken : (List.range' (j * size) size).take (limit - j * size) = List.range' (j * size) (limit - j * size) := by
    have append := @range'_append_1 (j * size) (limit - j * size) (size - (limit - j * size))
    rw [Nat.add_sub_cancel' (by omega : limit - j * size ≤ size)] at append
    rw [← append]
    exact take_left' length_range'
  have whole : List.range limit = List.range (j * size) ++ List.range' (j * size) (limit - j * size) := by
    have append := @range'_append_1 0 (j * size) (limit - j * size)
    rw [Nat.zero_add, Nat.add_sub_cancel' below.le] at append
    rw [range_eq_range', range_eq_range', append]
  rw [number, fill_full]
  simp only [sendN, last, full, taken, whole, map_append, mem_range]
  congr 2
  refine map_congr_left fun m member => ?_
  simp [mem_range.mp member]

/-- The loop goes on up to the batch that holds the last packet. -/
theorem loop_full (sized : 0 < size) {j : Nat} (below : j * size < limit) :
    loop dynamic size sized (full dynamic size limit j) = last dynamic size limit ((limit - 1) / size) := by
  unfold loop
  have more : (j + 1) * size = j * size + size := Nat.succ_mul j size
  split
  · rename_i stop
    rw [fill_full] at stop
    dsimp only at stop
    rw [bufs_full, sendN_full below (by omega)]
    congr 1
    refine (Nat.div_eq_of_lt_le ?_ ?_).symm <;> omega
  · rename_i go
    rw [fill_full] at go
    dsimp only at go
    rw [bufs_full, send_full]
    exact loop_full sized (by omega)
termination_by limit - j * size

theorem loadThread_eq (sized : 0 < size) (positive : 0 < limit) :
    loadThread dynamic size sized limit = last dynamic size limit ((limit - 1) / size) := by
  have start : (⟨limit, 0, [], 0, [], []⟩ : Load) = full dynamic size limit 0 := by
    simp [full]
  rw [loadThread, start]
  exact loop_full sized (by omega)

theorem le_batches (sized : 0 < size) (positive : 0 < limit) : limit ≤ ((limit - 1) / size + 1) * size := by
  have upper := Nat.lt_mul_div_succ (limit - 1) sized
  rw [Nat.mul_comm] at upper
  omega

theorem batches_eq_iff (sized : 0 < size) (positive : 0 < limit) :
    ((limit - 1) / size + 1) * size = limit ↔ size ∣ limit := by
  refine ⟨fun whole => Dvd.intro_left _ whole, fun whole => ?_⟩
  obtain ⟨k, rfl⟩ := exists_eq_mul_left_of_dvd whole
  have last : (k * size - 1) / size < k := (Nat.div_lt_iff_lt_mul sized).mpr (by omega)
  refine le_antisymm ?_ (le_batches sized positive)
  exact Nat.mul_le_mul_right size last

end Load

/-- A task with a data limit hands over just as many packets. Those of its last batch
were never offloaded, and neither that batch's mbufs nor its packets are accounted
for when it is not a full one. -/
theorem load_data_limit (dynamic : Bool) {size limit : Nat} (sized : 0 < size) (positive : 0 < limit) :
    let s := loadThread dynamic size sized limit
    s.handed.map Handed.mbuf = List.range limit ∧
      (∀ p ∈ s.handed, p.offloaded = true ↔ p.mbuf / size < (limit - 1) / size) ∧
      ((∀ m < s.allocated, m ∈ s.handed.map Handed.mbuf ∨ m ∈ s.freed) ↔ size ∣ limit) ∧
      (s.current = limit ↔ dynamic = true ∧ size ∣ limit) := by
  intro s
  have final : s = Load.last dynamic size limit ((limit - 1) / size) := Load.loadThread_eq sized positive
  have mbufs : s.handed.map Handed.mbuf = List.range limit := by
    rw [final, Load.last, map_map]
    exact map_id _
  have upper := Load.le_batches sized positive
  refine ⟨mbufs, fun p member => ?_, ?_, ?_⟩
  · rw [final, Load.last] at member
    obtain ⟨m, _, rfl⟩ := mem_map.mp member
    rw [decide_eq_true_eq, Nat.div_lt_iff_lt_mul sized]
  · rw [mbufs, final, ← Load.batches_eq_iff sized positive]
    simp only [Load.last, mem_range, not_mem_nil, or_false]
    refine ⟨fun all => le_antisymm (not_lt.mp fun more => lt_irrefl _ (all limit more)) upper, fun whole m below => ?_⟩
    rwa [whole] at below
  · rw [final, ← Load.batches_eq_iff sized positive]
    cases dynamic with
    | true => simp [Load.last]
    | false =>
      simp only [Load.last, Bool.false_eq_true, if_false, false_and, iff_false]
      exact positive.ne

theorem load_data_limit_six : let s := loadThread true 3 (by decide) 6
    s.handed.map Handed.mbuf = List.range 6 ∧ s.current = 6 ∧
      ∀ m < s.allocated, m ∈ s.handed.map Handed.mbuf ∨ m ∈ s.freed := by
  obtain ⟨handed, _, kept, counted⟩ := load_data_limit true (show 0 < 3 by decide) (show 0 < 6 by decide)
  exact ⟨handed, counted.mpr ⟨rfl, by decide⟩, kept.mpr (by decide)⟩

/-- One packet from an array of two: it is not offloaded, two are counted, and the
second mbuf is lost. -/
theorem load_last_batch : let s := loadThread true 2 (by decide) 1
    s.handed = [⟨0, false⟩] ∧ s.current = 2 ∧ s.allocated = 2 ∧ s.freed = [] := by
  rw [Load.loadThread_eq (by decide) (by decide)]
  decide

end MoonGen
