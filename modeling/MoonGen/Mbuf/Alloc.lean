import Mathlib.Data.List.Range
import Mathlib.Logic.Function.Basic
import MoonGen.Lib.Loop

namespace MoonGen

open Option

/-- A buffer, with all that is only reset as one value. -/
structure PktMbuf (ρ : Type*) where
  refcnt : UInt16
  pktLen : UInt32
  dataLen : UInt16
  rest : ρ
deriving DecidableEq

/-- The loop's index, the array with the buffers its pointers point to, and the indices in
the order in which the loop came to them. -/
structure AllocState (ρ : Type*) where
  i : UInt32
  bufs : UInt32 → Option (PktMbuf ρ)
  visited : List UInt32

variable {ρ : Type*}

/-- The function `rte_pktmbuf_reset`. -/
def PktMbuf.reset (clean : ρ) (m : PktMbuf ρ) : PktMbuf ρ := { m with pktLen := 0, dataLen := 0, rest := clean }

/-- What stands four times in the loop. It has no value where a pointer leads nowhere. -/
def AllocState.initBuf (clean : ρ) (pktLen : UInt16) (s : AllocState ρ) : Option (AllocState ρ) :=
  match s.bufs s.i with
  | none => none
  | some m =>
    let m := { m with refcnt := 1 }
    let m := m.reset clean
    let m := { m with pktLen := pktLen.toUInt32 }
    let m := { m with dataLen := pktLen }
    some { i := s.i + 1, bufs := Function.update s.bufs s.i (some m), visited := s.visited ++ [s.i] }

/-- The loop's body from a place on where some of the four are still to come. -/
def AllocState.fallThrough (clean : ρ) (pktLen : UInt16) : Nat → AllocState ρ → Option (AllocState ρ)
  | 0, s => some s
  | copies + 1, s => (s.initBuf clean pktLen).bind (fallThrough clean pktLen copies)

def allocLoop (clean : ρ) (len : UInt32) (pktLen : UInt16) : Loop (AllocState ρ) where
  test s := s.i != len
  body s := (s.fallThrough clean pktLen 4).map fun t => (t, false)

/-- The function `rte_mempool_get_bulk` of a pool that has enough buffers. -/
def mempoolGetBulk (delivered : UInt32 → PktMbuf ρ) (len : UInt32) (bufs : UInt32 → Option (PktMbuf ρ)) :
    UInt32 → Option (PktMbuf ρ) :=
  fun i => if i < len then some (delivered i) else bufs i

/-- The switch leads into the middle of the loop, where `case 0` is the first of the four. -/
def allocMbufs (fuel : Nat) (clean : ρ) (delivered : UInt32 → PktMbuf ρ) (bufs : UInt32 → Option (PktMbuf ρ))
    (len : UInt32) (pktLen : UInt16) : Option (AllocState ρ) :=
  let s : AllocState ρ := { i := 0, bufs := mempoolGetBulk delivered len bufs, visited := [] }
  let copies := if len % 4 = 0 then 4 else (len % 4).toNat
  (s.fallThrough clean pktLen copies).bind ((allocLoop clean len pktLen).run fuel)

structure BufArray (ρ : Type*) where
  size : UInt32
  maxSize : UInt32
  array : UInt32 → Option (PktMbuf ρ)

def BufArray.resize (bufs : BufArray ρ) (size : UInt32) : Except String (BufArray ρ) :=
  if size > bufs.maxSize then .error "enlarging a bufArray is currently not supported" else .ok { bufs with size }

def BufArray.allocN (fuel : Nat) (clean : ρ) (delivered : UInt32 → PktMbuf ρ) (bufs : BufArray ρ) (size : UInt16)
    (num : UInt32) : Except String (Option (AllocState ρ)) := do
  let bufs ← bufs.resize num
  return allocMbufs fuel clean delivered bufs.array bufs.size size

/-- A buffer as it leaves the loop. -/
def PktMbuf.initial (clean : ρ) (pktLen : UInt16) : PktMbuf ρ :=
  { refcnt := 1, pktLen := pktLen.toUInt32, dataLen := pktLen, rest := clean }

/-- The first buffers are set up, and nothing else was looked at. -/
structure AllocState.Filled (s : AllocState ρ) (before : UInt32 → Option (PktMbuf ρ)) (clean : ρ) (pktLen : UInt16)
    (k : Nat) : Prop where
  index : s.i.toNat = k
  visited : s.visited.map UInt32.toNat = List.range k
  done : ∀ j, j.toNat < k → s.bufs j = some (PktMbuf.initial clean pktLen)
  rest : ∀ j, k ≤ j.toNat → s.bufs j = before j

section Fill

variable {clean : ρ} {pktLen : UInt16} {len : UInt32} {before : UInt32 → Option (PktMbuf ρ)} {s : AllocState ρ}
  {k : Nat}

theorem AllocState.Filled.initBuf (filled : s.Filled before clean pktLen k) (present : (before s.i).isSome)
    (small : k + 1 < 2 ^ 32) : ∃ t, s.initBuf clean pktLen = some t ∧ t.Filled before clean pktLen (k + 1) := by
  obtain ⟨m, there⟩ := isSome_iff_exists.mp present
  have found : s.bufs s.i = some m := (filled.rest s.i (by rw [filled.index])).trans there
  have index := filled.index
  refine ⟨{ i := s.i + 1, bufs := Function.update s.bufs s.i (some (PktMbuf.initial clean pktLen)),
            visited := s.visited ++ [s.i] }, ?_, ⟨?_, ?_, ?_, ?_⟩⟩
  · rw [AllocState.initBuf, found]
    rfl
  · rw [UInt32.toNat_add, index]
    exact Nat.mod_eq_of_lt small
  · rw [List.map_append, filled.visited, List.map_singleton, index, List.range_succ]
  · intro j inside
    show Function.update s.bufs s.i (some (PktMbuf.initial clean pktLen)) j = _
    by_cases same : j = s.i
    · rw [same, Function.update_self]
    · rw [Function.update_of_ne same]
      exact filled.done j (by have := mt UInt32.toNat_inj.mp same; omega)
  · intro j beyond
    have other : j ≠ s.i := by
      rintro rfl
      omega
    show Function.update s.bufs s.i (some (PktMbuf.initial clean pktLen)) j = _
    rw [Function.update_of_ne other]
    exact filled.rest j (by omega)

theorem AllocState.Filled.fallThrough (present : ∀ j < len, (before j).isSome) {copies : Nat}
    (filled : s.Filled before clean pktLen k) (inside : k + copies ≤ len.toNat) :
    ∃ t, s.fallThrough clean pktLen copies = some t ∧ t.Filled before clean pktLen (k + copies) := by
  induction copies generalizing s k with
  | zero => exact ⟨s, rfl, filled⟩
  | succ copies ih =>
    have next : s.i < len := UInt32.lt_iff_toNat_lt.mpr (by rw [filled.index]; omega)
    obtain ⟨t, first, filled⟩ := filled.initBuf (present s.i next) (by have := len.toNat_lt; omega)
    obtain ⟨u, later, filled⟩ := ih filled (by omega)
    refine ⟨u, ?_, ?_⟩
    · rw [AllocState.fallThrough, first, bind_some, later]
    · rwa [Nat.add_right_comm, Nat.add_assoc] at filled

/-- The state at a test of the loop, whose distance from the end four divides. -/
def AllocState.Aligned (s : AllocState ρ) (before : UInt32 → Option (PktMbuf ρ)) (clean : ρ) (pktLen : UInt16)
    (len : UInt32) : Prop :=
  ∃ k, s.Filled before clean pktLen k ∧ k ≤ len.toNat ∧ 4 ∣ len.toNat - k

theorem AllocState.Aligned.round (present : ∀ j < len, (before j).isSome) (aligned : s.Aligned before clean pktLen len)
    (test : (allocLoop clean len pktLen).test s = true) :
    ∃ t, (allocLoop clean len pktLen).body s = some (t, false) ∧ t.Aligned before clean pktLen len ∧
      t.i.toNat = s.i.toNat + 4 ∧ t.i.toNat ≤ len.toNat := by
  obtain ⟨k, filled, inside, fours⟩ := aligned
  have before_end : k ≠ len.toNat := by
    intro same
    have index := filled.index
    rw [same, UInt32.toNat_inj] at index
    simp only [allocLoop, bne_iff_ne, ne_eq] at test
    exact test index
  have room : k + 4 ≤ len.toNat := by omega
  obtain ⟨t, run, after⟩ := filled.fallThrough present room
  refine ⟨t, ?_, ⟨k + 4, after, room, by omega⟩, by rw [after.index, filled.index], by rw [after.index]; exact room⟩
  simp only [allocLoop, run, map_some]

/-- One of the tests of the loop is made at the end, as four divides the distance at each. -/
theorem allocLoop_filled (present : ∀ j < len, (before j).isSome) (aligned : s.Aligned before clean pktLen len) :
    ∃ r, (allocLoop clean len pktLen).run len.toNat s = some r ∧ r.Filled before clean pktLen len.toNat := by
  obtain ⟨r, run⟩ : ∃ r, (allocLoop clean len pktLen).run len.toNat s = some r := by
    refine Loop.exists_run (fun s => len.toNat - s.i.toNat) (I := fun s => s.Aligned before clean pktLen len)
      (fun s aligned test => ?_) aligned (Nat.sub_le _ _)
    obtain ⟨t, body, kept, index, bound⟩ := AllocState.Aligned.round present aligned test
    exact ⟨by omega, t, false, body, fun _ => ⟨kept, by omega⟩⟩
  have kept : r.Aligned before clean pktLen len := by
    refine Loop.run_invariant (I := fun s => s.Aligned before clean pktLen len)
      (fun s t leave aligned test body => ?_) aligned run
    obtain ⟨t', body', kept, -⟩ := AllocState.Aligned.round present aligned test
    rw [body] at body'
    cases body'
    exact kept
  refine ⟨r, run, ?_⟩
  obtain ⟨t, -, ⟨stop, rfl⟩ | ⟨-, body⟩⟩ := Loop.run_last run
  · obtain ⟨k, filled, -, -⟩ := kept
    simp only [allocLoop, bne_eq_false_iff_eq] at stop
    have index := filled.index
    rw [stop] at index
    rwa [index]
  · simp only [allocLoop, map_eq_some_iff] at body
    obtain ⟨_, _, same⟩ := body
    cases same

/-- Where the switch enters the loop. -/
theorem entry_copies (some_buffer : len ≠ 0) :
    (if len % 4 = 0 then 4 else (len % 4).toNat) ≤ len.toNat ∧
      4 ∣ len.toNat - (if len % 4 = 0 then 4 else (len % 4).toNat) := by
  have positive : len.toNat ≠ 0 := fun zero => some_buffer (UInt32.toNat_inj.mp zero)
  have residue : (len % 4).toNat = len.toNat % 4 := UInt32.toNat_mod len 4
  split
  · rename_i whole
    have zero : len.toNat % 4 = 0 := by rw [← residue, whole, UInt32.toNat_zero]
    omega
  · omega

theorem AllocState.visited_fallThrough {copies : Nat} {t : AllocState ρ} {i : UInt32} (member : i ∈ s.visited)
    (run : s.fallThrough clean pktLen copies = some t) : i ∈ t.visited := by
  induction copies generalizing s with
  | zero =>
    cases run
    exact member
  | succ copies ih =>
    obtain ⟨u, first, later⟩ := bind_eq_some_iff.mp run
    refine ih ?_ later
    rw [initBuf] at first
    split at first
    · cases first
    · cases first
      exact List.mem_append_left _ member

/-- With no buffers to set up the loop is entered all the same. -/
theorem allocMbufs_zero {fuel : Nat} {delivered : UInt32 → PktMbuf ρ} {bufs : UInt32 → Option (PktMbuf ρ)}
    {r : AllocState ρ} (run : allocMbufs fuel clean delivered bufs 0 pktLen = some r) : 0 ∈ r.visited := by
  obtain ⟨s, first, loop⟩ := bind_eq_some_iff.mp run
  rw [if_pos (by decide), AllocState.fallThrough] at first
  obtain ⟨t, start, later⟩ := bind_eq_some_iff.mp first
  have there : 0 ∈ t.visited := by
    rw [AllocState.initBuf] at start
    split at start
    · cases start
    · cases start
      exact List.mem_singleton_self 0
  refine Loop.run_invariant (I := fun s => 0 ∈ s.visited) (fun s t leave member _ body => ?_)
    (AllocState.visited_fallThrough there later) loop
  obtain ⟨u, copies, same⟩ := map_eq_some_iff.mp body
  cases same
  exact AllocState.visited_fallThrough member copies

end Fill

/-- The loop ends with exactly the first `len` buffers set up, each once, and has looked at no
other, unless there are none to set up. -/
theorem allocMbufs_exact_iff (clean : ρ) (delivered : UInt32 → PktMbuf ρ) (bufs : UInt32 → Option (PktMbuf ρ))
    (len : UInt32) (pktLen : UInt16) :
    (∃ fuel r, allocMbufs fuel clean delivered bufs len pktLen = some r ∧
        r.visited.map UInt32.toNat = List.range len.toNat ∧
        (∀ i < len, r.bufs i = some { refcnt := 1, pktLen := pktLen.toUInt32, dataLen := pktLen, rest := clean }) ∧
        ∀ i, len ≤ i → r.bufs i = bufs i) ↔
      len ≠ 0 := by
  constructor
  · rintro ⟨fuel, r, run, visited, -⟩ rfl
    have first := List.mem_map_of_mem (f := UInt32.toNat) (allocMbufs_zero run)
    rw [visited] at first
    exact absurd first (by decide)
  · intro some_buffer
    obtain ⟨inside, fours⟩ := entry_copies some_buffer
    generalize same : (if len % 4 = 0 then 4 else (len % 4).toNat) = copies at inside fours
    have present : ∀ i < len, (mempoolGetBulk delivered len bufs i).isSome := fun i inside => by
      rw [mempoolGetBulk, if_pos inside, isSome_some]
    have start : AllocState.Filled { i := 0, bufs := mempoolGetBulk delivered len bufs, visited := [] }
        (mempoolGetBulk delivered len bufs) clean pktLen 0 :=
      ⟨rfl, rfl, fun j inside => absurd inside (Nat.not_lt_zero _), fun _ _ => rfl⟩
    obtain ⟨s, first, filled⟩ := start.fallThrough present (show 0 + copies ≤ len.toNat by omega)
    rw [Nat.zero_add] at filled
    obtain ⟨r, loop, filled⟩ := allocLoop_filled present ⟨_, filled, inside, fours⟩
    refine ⟨len.toNat, r, ?_, filled.visited, ?_, ?_⟩
    · simp only [allocMbufs, same, first, bind_some, loop]
    · exact fun i inside => filled.done i (UInt32.lt_iff_toNat_lt.mp inside)
    · intro i beyond
      rw [filled.rest i (UInt32.le_iff_toNat_le.mp beyond), mempoolGetBulk, if_neg (UInt32.not_lt.mpr beyond)]

/-- In an array that still holds four buffers of an earlier request, a request for no buffers
sets up these four and then comes to a pointer that leads nowhere. -/
theorem allocN_none_requested :
    let bufs : BufArray Unit := ⟨8, 8, fun i => if i < 4 then some ⟨2, 1514, 1514, ()⟩ else none⟩
    (∃ s, AllocState.fallThrough () 60 4 ⟨0, mempoolGetBulk (fun _ => ⟨0, 0, 0, ()⟩) 0 bufs.array, []⟩ = some s ∧
      s.visited = [0, 1, 2, 3] ∧ s.bufs 3 = some ⟨1, 60, 60, ()⟩) ∧
    ∀ fuel, bufs.allocN fuel () (fun _ => ⟨0, 0, 0, ()⟩) 60 0 = .ok none := by
  refine ⟨⟨_, rfl, rfl, by decide⟩, fun fuel => ?_⟩
  exact congrArg Except.ok (Loop.run_of_stuck rfl rfl fuel)

end MoonGen
