import MoonGen.Lib.Bytes
import MoonGen.Lib.Loop

namespace MoonGen

namespace Sflow

/-- What a record is cast to. -/
inductive RecordKind
  | unknown
  | flowSample
  | extSwitchData
  | rawPacket
deriving DecidableEq

/-- A cast of a record at an offset from the payload that is iterated. -/
structure Cast where
  offset : Int
  kind : RecordKind
deriving DecidableEq

/-- The state of an iterator in a `for` loop, with the casts that were made. -/
structure Walk where
  i : Int := 0
  pos : Int := 0
  casts : List Cast := []
deriving DecidableEq

/-- `bit.bswap` of a `uint32_t`, which is signed. -/
def ntoh (v : Nat) : Int := (BitVec.ofNat 32 (Bytes.bswap 4 v)).toInt

/-- `cast(uint32, payload + pos)[0]` -/
def u32 (mem : Memory) (a : Int) : Nat := mem.word a.toNat 4

/-- A getter made by `genIntGetter`, for the member at an address. -/
def getInt (mem : Memory) (a : Int) : Int :=
  let num := ntoh (u32 mem a)
  if num < 0 then 0x100000000 + num else num

section
variable (mem : Memory) (payload : Int)

def recordLen (pos : Int) : Int := ntoh (u32 mem (payload + pos + 4))

/-- The position behind a record. -/
def behind (pos : Int) : Int := pos + recordLen mem payload pos + 8

/-- The type that `iterateSamples` casts a record to. -/
def sampleKind (pos : Int) : RecordKind :=
  if u32 mem (payload + pos) = 0x01000000 then .flowSample else .unknown

/-- The type that `iterateEntries` casts a record to. -/
def entryKind (pos : Int) : RecordKind :=
  if u32 mem (payload + pos) = 0xe9030000 then .extSwitchData
  else if u32 mem (payload + pos) = 0x01000000 then .rawPacket
  else .unknown

end

/-- A `for` loop over an iterator: the record at the position is cast, and unless it ends
beyond 1600 it goes to the body of the loop, whose casts are added. -/
def recordWalk (num : Int) (kind : Int → RecordKind) (next : Int → Int) (visit : Int → Option (List Cast)) :
    Loop Walk where
  test s := s.i ≠ num
  body s :=
    let casts := s.casts ++ [⟨s.pos, kind s.pos⟩]
    if 1600 < next s.pos then some ({ s with pos := next s.pos, casts }, true)
    else (visit s.pos).map fun inner => ({ i := s.i + 1, pos := next s.pos, casts := casts ++ inner }, false)

/-- `sflowFlowSample:getNumEntries`, which is signed. -/
def getNumEntries (mem : Memory) (sample : Int) : Int := ntoh (u32 mem (sample + 36))

/-- The loop over the entries of a flow sample, whose payload is behind ten words. -/
def iterateEntries (fuel : Nat) (mem : Memory) (sample : Int) : Option Walk :=
  (recordWalk (getNumEntries mem sample) (entryKind mem (sample + 40)) (behind mem (sample + 40))
    fun _ => some []).run fuel {}

/-- The loop over the entries of a record, of which other records than flow samples have
none. -/
def recordEntries (fuel : Nat) (mem : Memory) (record : Int) : RecordKind → Option (List Cast)
  | .flowSample => (iterateEntries fuel mem record).map Walk.casts
  | _ => some []

/-- The loop over the samples with the loop over the entries of each one inside. The
number of samples stands before the payload. -/
def iterateSamples (fuel inner : Nat) (mem : Memory) (payload : Int) : Option Walk :=
  (recordWalk (getInt mem (payload - 4)) (sampleKind mem payload) (behind mem payload) fun pos =>
    recordEntries inner mem (payload + pos) (sampleKind mem payload pos)).run fuel {}

/-- A word in network byte order, as the wire has it. -/
def netWord (mem : Memory) (a : Int) : Nat := Bytes.bswap 4 (u32 mem a)

/-- The place of a record on the wire, behind the records before it. -/
def place (mem : Memory) (payload : Int) : Nat → Nat
  | 0 => 0
  | k + 1 => place mem payload k + netWord mem (payload + place mem payload k + 4) + 8

/-- Of `n` records those that begin in the first 1600 bytes have a length below 2^31. -/
def Lengths (mem : Memory) (payload : Int) (n : Nat) : Prop :=
  ∀ k < n, place mem payload k ≤ 1600 → netWord mem (payload + place mem payload k + 4) < 2 ^ 31

/-- The lengths of the samples, and of the entries of each flow sample that ends in the
first 1600 bytes. -/
structure Datagram (mem : Memory) (payload : Int) : Prop where
  samples : Lengths mem payload (netWord mem (payload - 4))
  entries : ∀ k < netWord mem (payload - 4), place mem payload (k + 1) ≤ 1600 →
    netWord mem (payload + place mem payload k) = 1 →
    Lengths mem (payload + place mem payload k + 40) (netWord mem (payload + place mem payload k + 36))

def Cast.InRange (c : Cast) : Prop := 0 ≤ c.offset ∧ c.offset ≤ 1600

theorem netWord_lt (mem : Memory) (a : Int) : netWord mem a < 2 ^ 32 := by
  have bound := Bytes.ofLe_lt (Memory.leBytes 4 (u32 mem a)).reverse
  rwa [List.length_reverse, Memory.length_leBytes] at bound

theorem netWord_eq_one {mem : Memory} {a : Int} (flow : u32 mem a = 0x01000000) : netWord mem a = 1 := by
  rw [netWord, flow]
  rfl

/-- The signed number of a word is the one on the wire, or negative. -/
theorem ntoh_u32 (mem : Memory) (a : Int) :
    (netWord mem a < 2 ^ 31 ∧ ntoh (u32 mem a) = netWord mem a) ∨
      (2 ^ 31 ≤ netWord mem a ∧ ntoh (u32 mem a) = netWord mem a - 2 ^ 32) := by
  have small := netWord_lt mem a
  rw [ntoh, BitVec.toInt_eq_toNat_cond, BitVec.toNat_ofNat, ← netWord, Nat.mod_eq_of_lt small]
  split <;> omega

theorem getInt_eq (mem : Memory) (a : Int) : getInt mem a = netWord mem a := by
  have small := netWord_lt mem a
  rw [getInt]
  rcases ntoh_u32 mem a with ⟨_, eq⟩ | ⟨_, eq⟩ <;> rw [eq] <;> split <;> omega

theorem mul_le_place (mem : Memory) (payload : Int) (k : Nat) : 8 * k ≤ place mem payload k := by
  induction k with
  | zero => rfl
  | succ k ih =>
    rw [place]
    omega

theorem Lengths.behind_eq {mem : Memory} {payload : Int} {n k : Nat} (lengths : Lengths mem payload n) (less : k < n)
    (near : place mem payload k ≤ 1600) : behind mem payload (place mem payload k) = place mem payload (k + 1) := by
  have short := lengths k less near
  rw [behind, recordLen, place]
  rcases ntoh_u32 mem (payload + place mem payload k + 4) with ⟨_, eq⟩ | ⟨long, _⟩
  · rw [eq]
    push_cast
    rfl
  · omega

/-- The state before the record `k`. -/
structure At (mem : Memory) (payload : Int) (n k : Nat) (s : Walk) : Prop where
  index : s.i = k
  pos : s.pos = place mem payload k
  le : k ≤ n
  near : place mem payload k ≤ 1600
  inRange : ∀ c ∈ s.casts, c.InRange

section
variable {mem : Memory} {payload num : Int} {n : Nat} {kind : Int → RecordKind}

theorem At.cast_inRange {k : Nat} {s : Walk} (here : At mem payload n k s) :
    ∀ c ∈ s.casts ++ [⟨s.pos, kind s.pos⟩], c.InRange := by
  have near := here.near
  intro c member
  rcases List.mem_append.mp member with old | new
  · exact here.inRange c old
  · rw [List.mem_singleton.mp new, Cast.InRange, here.pos]
    exact ⟨Int.natCast_nonneg _, by simp only; omega⟩

/-- A loop over records with such lengths ends within 201 rounds with casts in range only. A
number of records that is taken for a negative one is too large to be reached. -/
theorem Lengths.exists_run (lengths : Lengths mem payload n) (count : num = n ∨ num < 0 ∧ 201 ≤ n)
    (kind : Int → RecordKind) (visit : Int → Option (List Cast)) (visits : ∀ k < n, place mem payload (k + 1) ≤ 1600 →
      ∃ inner, visit (place mem payload k) = some inner ∧ ∀ c ∈ inner, c.InRange) :
    ∃ r, (recordWalk num kind (behind mem payload) visit).run 201 {} = some r ∧ ∀ c ∈ r.casts, c.InRange := by
  have first : At mem payload n 0 {} :=
    ⟨rfl, rfl, n.zero_le, Nat.zero_le 1600, List.forall_mem_nil _⟩
  refine Loop.exists_run_with (I := fun s => ∃ k, At mem payload n k s) (fun s => 201 - s.i.toNat)
    (fun s ⟨_, here⟩ _ => here.inRange) ?_ ⟨0, first⟩ le_rfl
  rintro s ⟨k, here⟩ go
  have other : s.i ≠ num := of_decide_eq_true go
  have places := mul_le_place mem payload k
  have inRange : ∀ c ∈ s.casts ++ [⟨s.pos, kind s.pos⟩], c.InRange := here.cast_inRange
  obtain ⟨index, pos, le, near, -⟩ := here
  have less : k < n := by omega
  have next := lengths.behind_eq less near
  rw [← pos] at next
  refine ⟨by omega, ?_⟩
  by_cases far : 1600 < place mem payload (k + 1)
  · have leave : (recordWalk num kind (behind mem payload) visit).body s = _ := if_pos (by omega)
    exact ⟨_, true, leave, fun _ => inRange, fun same => absurd same.symm Bool.false_ne_true⟩
  · obtain ⟨inner, visited, inside⟩ := visits k less (Nat.not_lt.mp far)
    rw [← pos] at visited
    have again : (recordWalk num kind (behind mem payload) visit).body s =
        some (⟨s.i + 1, behind mem payload s.pos, s.casts ++ [⟨s.pos, kind s.pos⟩] ++ inner⟩, false) := by
      refine (if_neg (by omega)).trans ?_
      rw [visited]
      rfl
    refine ⟨_, false, again, fun same => absurd same Bool.false_ne_true, fun _ => ⟨⟨k + 1, ?_⟩, ?_⟩⟩
    · refine ⟨by simp [index], next, less, Nat.not_lt.mp far, fun c member => ?_⟩
      rcases List.mem_append.mp member with old | new
      · exact inRange c old
      · exact inside c new
    · simp only
      omega

end

/-- The loop over the entries of a record ends with casts in range. -/
theorem exists_recordEntries {mem : Memory} {record : Int} {kind : RecordKind}
    (lengths : kind = .flowSample → Lengths mem (record + 40) (netWord mem (record + 36))) :
    ∃ casts, recordEntries 201 mem record kind = some casts ∧ ∀ c ∈ casts, c.InRange := by
  have empty : ∀ c ∈ ([] : List Cast), c.InRange := List.forall_mem_nil _
  cases kind with
  | flowSample =>
    have count : getNumEntries mem record = netWord mem (record + 36) ∨
        getNumEntries mem record < 0 ∧ 201 ≤ netWord mem (record + 36) := by
      have small := netWord_lt mem (record + 36)
      rw [getNumEntries]
      rcases ntoh_u32 mem (record + 36) with ⟨_, eq⟩ | ⟨_, eq⟩ <;> rw [eq] <;> omega
    obtain ⟨r, result, inRange⟩ := (lengths rfl).exists_run count (entryKind mem (record + 40)) (fun _ => some [])
      fun _ _ _ => ⟨[], rfl, empty⟩
    exact ⟨r.casts, congrArg (Option.map Walk.casts) result, inRange⟩
  | unknown => exact ⟨[], rfl, empty⟩
  | extSwitchData => exact ⟨[], rfl, empty⟩
  | rawPacket => exact ⟨[], rfl, empty⟩

/-- A flow sample at address 100 with one raw packet of four bytes. -/
def oneFlow : Memory := fun a =>
  if a = 99 ∨ a = 103 ∨ a = 139 ∨ a = 143 then 1 else if a = 107 then 44 else if a = 147 then 4 else 0

/-- Two samples at address 100, of which the first one has the length -16. -/
def backwards : Memory := fun a =>
  if a = 99 then 2 else if a = 104 ∨ a = 105 ∨ a = 106 then 0xff else if a = 107 then 0xf0 else 0

/-- A flow sample at address 100 with -1 entries, of which each has the length -8. -/
def endless : Memory := fun a =>
  if a = 99 ∨ a = 103 then 1 else if a = 107 then 0x30 else if 136 ≤ a ∧ a ≤ 139 then 0xff
  else if a = 144 ∨ a = 145 ∨ a = 146 then 0xff else if a = 147 then 0xf8 else 0

/-- The entry at the place zero is visited again and again. -/
theorem entries_not_run (fuel : Nat) {s : Walk} (here : s.pos = 0) (index : 0 ≤ s.i) :
    (recordWalk (-1) (entryKind endless 140) (behind endless 140) fun _ => some []).run fuel s = none := by
  have go : (recordWalk (-1) (entryKind endless 140) (behind endless 140) fun _ => some []).test s = true :=
    decide_eq_true (by omega)
  have stays : behind endless 140 s.pos = 0 := by
    rw [here]
    decide
  induction fuel generalizing s with
  | zero => exact if_pos go
  | succ fuel ih =>
    have again : (recordWalk (-1) (entryKind endless 140) (behind endless 140) fun _ => some []).body s =
        some (⟨s.i + 1, behind endless 140 s.pos, s.casts ++ [⟨s.pos, entryKind endless 140 s.pos⟩] ++ []⟩, false) :=
      if_neg (by omega)
    rw [Loop.run_of_again go again]
    exact ih stays (by simp only; omega) (decide_eq_true (by simp only; omega)) (by simp only [stays]; decide)

theorem endless_not_run (fuel inner : Nat) : iterateSamples fuel inner endless 100 = none := by
  have entries : iterateEntries inner endless 100 = none := entries_not_run inner rfl le_rfl
  have go : (0 : Int) ≠ getInt endless (100 - 4) := by decide
  have near : ¬1600 < behind endless 100 0 := by decide
  have visited : recordEntries inner endless (100 + 0) (sampleKind endless 100 0) = none := by
    rw [show sampleKind endless 100 0 = .flowSample by decide]
    exact congrArg (Option.map Walk.casts) entries
  refine Loop.run_of_stuck (decide_eq_true go) ?_ fuel
  simp only [recordWalk, if_neg near, visited, Option.map_none]

end Sflow

end MoonGen
