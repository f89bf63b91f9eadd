import MoonGen.Lib.LuaBit
import MoonGen.Tcp.Options

namespace MoonGen

open Memory LuaBit
open List

/-- The store of a number that is not negative into a `uint8_t`. Beyond 32 bits it depends
on the machine. -/
structure ByteStore where
  byte : Nat → UInt8
  exact : ∀ n < 2 ^ 31, byte n = .ofNat n

/-- What is given to a getter: an offset or an option from `getOptions`. -/
inductive OptionArg
  | number (offset : Int)
  | entry (entry : OptionEntry)

namespace TcpHeader

section
variable (store : ByteStore) (mem : Memory) (tcp : Nat)

/-- `self.options[offset] = x` -/
def setOption (offset : Int) (x : UInt8) : Memory := mem.set (tcp + 20 + offset).toNat x

def setNopOption (offset : Int) : Memory × Int := (setOption mem tcp offset 1, offset + 1)

def setEolOption (offset : Int) : Memory × Int := (setOption mem tcp offset 0, offset + 1)

/-- The loop of `fillOptions`. -/
def fillNops (maxOffset : Int) : Loop (Memory × Int) where
  test s := s.2 < maxOffset - 1
  body s := some (setNopOption s.1 tcp s.2, false)

/-- `tcpHeader:fillOptions`, if it takes at most `fuel` rounds. -/
def fillOptions (fuel : Nat) (offset : Option Int) : Option (Memory × Int) :=
  let maxOffset := getVariableLength mem tcp
  ((fillNops tcp maxOffset).run fuel (mem, offset.getD 0)).map fun s =>
    if s.2 = maxOffset - 1 then setEolOption s.1 tcp s.2 else s

def setWSOption (offset : Int) (value : Nat) : Memory × Int :=
  let mem := setOption mem tcp offset 3
  let mem := setOption mem tcp (offset + 1) 3
  let mem := setOption mem tcp (offset + 2) (store.byte value)
  (mem, offset + 3)

/-- `tcpHeader:getWSOption`, without a value when it raises an error. It compares the name
of a type with the global `number`, which is nil, so that a number is indexed. -/
def getWSOption : OptionArg → Option Nat
  | .number _ => none
  | .entry entry => (entry.byte.bind fun byte => byte[0]?).map UInt8.toNat

def setMssOption (offset : Int) (value : Nat) : Memory × Int :=
  let mem := setOption mem tcp offset 2
  let mem := setOption mem tcp (offset + 1) 4
  let mem := setOption mem tcp (offset + 2) (store.byte (rshift value 8).toNat)
  let mem := setOption mem tcp (offset + 3) (store.byte value)
  (mem, offset + 4)

/-- `tcpHeader:getMssOption`, with the same comparison. -/
def getMssOption : OptionArg → Option Int
  | .number _ => none
  | .entry entry =>
    match entry.byte with
    | some (x :: y :: _) => some (lshift x.toNat 8 + y.toNat)
    | _ => none

def setTSOption (offset : Int) (tsval tsecr : Nat) : Memory × Int :=
  let mem := setOption mem tcp offset 8
  let mem := setOption mem tcp (offset + 1) 10
  let mem := setOption mem tcp (offset + 2) (store.byte (rshift tsval 24).toNat)
  let mem := setOption mem tcp (offset + 3) (store.byte (rshift tsval 16).toNat)
  let mem := setOption mem tcp (offset + 4) (store.byte (rshift tsval 8).toNat)
  let mem := setOption mem tcp (offset + 5) (store.byte tsval)
  let mem := setOption mem tcp (offset + 6) (store.byte (rshift tsecr 24).toNat)
  let mem := setOption mem tcp (offset + 7) (store.byte (rshift tsecr 16).toNat)
  let mem := setOption mem tcp (offset + 8) (store.byte (rshift tsecr 8).toNat)
  let mem := setOption mem tcp (offset + 9) (store.byte tsecr)
  (mem, offset + 10)

/-- The sum of the shifted bytes of a timestamp. -/
def timestamp (x y z w : UInt8) : Int := lshift x.toNat 24 + lshift y.toNat 16 + lshift z.toNat 8 + w.toNat

def getTSOption (arg : OptionArg) : Option (Int × Int) :=
  let dat := match arg with
    | .number offset => some ((List.range 8).map fun i : Nat => option mem tcp (offset + (i + 2)))
    | .entry entry => entry.byte
  match dat with
  | some (x :: y :: z :: w :: x' :: y' :: z' :: w' :: _) => some (timestamp x y z w, timestamp x' y' z' w')
  | _ => none

end

end TcpHeader

/-- The options that have setters. -/
inductive TcpOption
  | nop
  | ws (value : UInt8)
  | mss (value : UInt16)
  | ts (tsval tsecr : UInt32)
deriving DecidableEq

namespace TcpOption

open TcpHeader

def size : TcpOption → Nat
  | nop => 1
  | ws _ => 3
  | mss _ => 4
  | ts _ _ => 10

/-- The bytes of a timestamp, most significant byte first. -/
def stamp (x : UInt32) : List UInt8 :=
  [.ofNat (x.toNat / 2 ^ 24), .ofNat (x.toNat / 2 ^ 16), .ofNat (x.toNat / 2 ^ 8), .ofNat x.toNat]

/-- An option as it should be parsed. -/
def entry (offset : Int) : TcpOption → OptionEntry
  | nop => { type := 1, offset }
  | ws value => { type := 3, offset, byte := some [value] }
  | mss value => { type := 2, offset, byte := some [.ofNat (value.toNat / 2 ^ 8), .ofNat value.toNat] }
  | ts tsval tsecr => { type := 8, offset, byte := some (stamp tsval ++ stamp tsecr) }

/-- The call of the setter of an option. -/
def write (store : ByteStore) (tcp : Nat) (s : Memory × Int) : TcpOption → Memory × Int
  | nop => setNopOption s.1 tcp s.2
  | ws value => setWSOption store s.1 tcp s.2 value.toNat
  | mss value => setMssOption store s.1 tcp s.2 value.toNat
  | ts tsval tsecr => setTSOption store s.1 tcp s.2 tsval.toNat tsecr.toNat

/-- The getter of an option returns what was written, for the parsed option and for its
offset. -/
def Returned (mem : Memory) (tcp : Nat) (offset : Int) : TcpOption → Prop
  | nop => True
  | ws value =>
    getWSOption (.entry ((ws value).entry offset)) = some value.toNat ∧
      getWSOption (.number offset) = some value.toNat
  | mss value =>
    getMssOption (.entry ((mss value).entry offset)) = some (value.toNat : Int) ∧
      getMssOption (.number offset) = some (value.toNat : Int)
  | ts tsval tsecr =>
    getTSOption mem tcp (.entry ((ts tsval tsecr).entry offset)) = some ((tsval.toNat : Int), (tsecr.toNat : Int)) ∧
      getTSOption mem tcp (.number offset) = some ((tsval.toNat : Int), (tsecr.toNat : Int))

/-- An option whose getter returns what was written. -/
def Kept : TcpOption → Prop
  | nop => True
  | ws _ => False
  | mss _ => False
  | ts tsval tsecr => tsval < 0x80000000 ∧ tsecr < 0x80000000

/-- Options with the offsets at which they are written one after another. -/
def placed (offset : Nat) : List TcpOption → List (Nat × TcpOption)
  | [] => []
  | opt :: opts => (offset, opt) :: placed (offset + opt.size) opts

def total (opts : List TcpOption) : Nat := (opts.map size).sum

/-- The options for the bytes that are left, with an EOL as the last one. -/
def fill (offset : Nat) : Nat → List OptionEntry
  | 0 => []
  | rest + 1 =>
    ((List.range rest).map fun i => { type := 1, offset := offset + i }) ++ [{ type := 0, offset := offset + rest }]

/-- Options are written from offset 0 on, the rest is filled, and everything comes back. -/
def RoundTrip (store : ByteStore) (mem : Memory) (tcp : Nat) (opts : List TcpOption) : Prop :=
  let written := opts.foldl (write store tcp) (mem, 0)
  ∃ fuel mem' last fuel' scan, fillOptions written.1 tcp fuel (some written.2) = some (mem', last) ∧
    getOptions mem' tcp fuel' none none = some scan ∧
    scan.options = (placed 0 opts).map (fun place => place.2.entry place.1) ++
      fill (total opts) ((getVariableLength mem tcp).toNat - total opts) ∧
    ∀ place ∈ placed 0 opts, place.2.Returned mem' tcp place.1

end TcpOption

theorem ByteStore.byte_rshift (store : ByteStore) {x : Nat} {n : Int} (word : x < 2 ^ 32) (positive : 0 < n)
    (count : n < 32) : store.byte (rshift x n).toNat = .ofNat (x / 2 ^ n.toNat) := by
  have step : 2 ^ 1 ≤ 2 ^ n.toNat := Nat.pow_le_pow_right (by decide) (by omega)
  rw [rshift_natCast word positive count, Int.toNat_natCast, store.exact]
  exact Nat.lt_of_le_of_lt (Nat.div_le_div_left step (by decide)) (by omega)

theorem lshift_toNat (x : UInt8) {n : Int} (nonneg : 0 ≤ n) (count : n < 32) :
    lshift x.toNat n =
      if 2 * (x.toNat * 2 ^ n.toNat % 2 ^ 32) < 2 ^ 32 then ((x.toNat * 2 ^ n.toNat % 2 ^ 32 : Nat) : Int)
      else ((x.toNat * 2 ^ n.toNat % 2 ^ 32 : Nat) : Int) - 2 ^ 32 := by
  rw [lshift, Int.emod_eq_of_lt nonneg count, BitVec.toInt_eq_toNat_cond, BitVec.toNat_shiftLeft,
    toNat_bits_natCast (Nat.lt_trans x.toNat_lt (by decide)), Nat.shiftLeft_eq]
  rfl

namespace TcpHeader

theorem option_natCast (mem : Memory) (tcp p : Nat) : option mem tcp (p : Int) = mem (tcp + 20 + p) := rfl

theorem map_option_range (mem : Memory) (tcp p k : Nat) :
    ((List.range k).map fun i : Nat => option mem tcp ((p : Int) + i)) = mem.slice (tcp + 20 + p) k := by
  induction k generalizing p with
  | zero => rfl
  | succ k ih =>
    rw [range_succ_eq_map, map_cons, map_map, slice]
    refine congrArg₂ _ rfl ((map_congr_left fun i _ => ?_).trans (ih (p + 1)))
    exact congrArg (option mem tcp) (by simp only [Nat.cast_succ]; omega)

theorem getVariableLength_store (mem : Memory) (tcp p : Nat) (xs : List UInt8) :
    getVariableLength (mem.store (tcp + 20 + p) xs) tcp = getVariableLength mem tcp := by
  rw [getVariableLength, getDataOffset, store_of_outside mem (by omega)]
  rfl

end TcpHeader

namespace TcpOption

open TcpHeader

/-- The bytes of an option. -/
def bytes : TcpOption → List UInt8
  | nop => [1]
  | ws value => [3, 3, value]
  | mss value => [2, 4, .ofNat (value.toNat / 2 ^ 8), .ofNat value.toNat]
  | ts tsval tsecr => 8 :: 10 :: (stamp tsval ++ stamp tsecr)

/-- An option whose values are stored the same way on every machine. -/
def Small : TcpOption → Prop
  | ts tsval tsecr => tsval < 0x80000000 ∧ tsecr < 0x80000000
  | _ => True

variable {opt : TcpOption}

theorem write_eq (store : ByteStore) (mem : Memory) (tcp p : Nat) (small : opt.Small) :
    opt.write store tcp (mem, (p : Int)) = (mem.store (tcp + 20 + p) opt.bytes, ((p + opt.size : Nat) : Int)) := by
  cases opt with
  | nop => rfl
  | ws value =>
    have byte : store.byte value.toNat = value := by
      rw [store.exact _ (Nat.lt_trans value.toNat_lt (by decide)), UInt8.ofNat_toNat]
    rw [write, setWSOption, byte]
    rfl
  | mss value =>
    have low : store.byte value.toNat = .ofNat value.toNat := store.exact _ (Nat.lt_trans value.toNat_lt (by decide))
    rw [write, setMssOption, store.byte_rshift (Nat.lt_trans value.toNat_lt (by decide)) (by decide) (by decide), low]
    rfl
  | ts tsval tsecr =>
    have low : store.byte tsval.toNat = .ofNat tsval.toNat := store.exact _ (UInt32.lt_iff_toNat_lt.mp small.1)
    have low' : store.byte tsecr.toNat = .ofNat tsecr.toNat := store.exact _ (UInt32.lt_iff_toNat_lt.mp small.2)
    simp (disch := decide) only [write, setTSOption, low, low', store.byte_rshift tsval.toNat_lt,
      store.byte_rshift tsecr.toNat_lt]
    rfl

theorem length_bytes (opt : TcpOption) : opt.bytes.length = opt.size := by
  cases opt <;> rfl

theorem length_flatMap_bytes (opts : List TcpOption) : (opts.flatMap bytes).length = total opts := by
  rw [length_flatMap, total]
  exact congrArg List.sum (map_congr_left fun opt _ => opt.length_bytes)

theorem total_cons (opt : TcpOption) (opts : List TcpOption) : total (opt :: opts) = opt.size + total opts := by
  rw [total, total, map_cons, sum_cons]

variable {opts : List TcpOption}

theorem foldl_write (store : ByteStore) (mem : Memory) (tcp p : Nat)
    (small : ∀ opt ∈ opts, opt.Small) : opts.foldl (write store tcp) (mem, (p : Int)) =
      (mem.store (tcp + 20 + p) (opts.flatMap bytes), ((p + total opts : Nat) : Int)) := by
  induction opts generalizing mem p with
  | nil => rfl
  | cons opt opts ih =>
    obtain ⟨first, later⟩ := forall_mem_cons.mp small
    rw [foldl_cons, write_eq store mem tcp p first, ih _ _ later, flatMap_cons, store_append, length_bytes,
      total_cons, ← Nat.add_assoc, ← Nat.add_assoc]

/-- The bytes that `fillOptions` writes. -/
def fillBytes : Nat → List UInt8
  | 0 => []
  | rest + 1 => List.replicate rest 1 ++ [0]

theorem run_fillNops (mem : Memory) (tcp p n : Nat) :
    (fillNops tcp ((p + n + 1 : Nat) : Int)).run n (mem, (p : Int)) =
      some (mem.store (tcp + 20 + p) (List.replicate n 1), ((p + n : Nat) : Int)) := by
  induction n generalizing mem p with
  | zero => exact Loop.run_of_stop (decide_eq_false (by omega)) 0
  | succ n ih =>
    have next := ih (mem.set (tcp + 20 + p) 1) (p + 1)
    have places : p + 1 + n = p + (n + 1) := by omega
    rw [places] at next
    exact (Loop.run_of_again (decide_eq_true (by omega)) rfl n).trans next

theorem fillOptions_eq (mem : Memory) (tcp p rest : Nat)
    (length : getVariableLength mem tcp = ((p + rest : Nat) : Int)) :
    fillOptions mem tcp (rest - 1) (some (p : Int)) =
      some (mem.store (tcp + 20 + p) (fillBytes rest), ((p + rest : Nat) : Int)) := by
  cases rest with
  | zero =>
    have stop : (fillNops tcp (p + 0 : Nat)).test (mem, (p : Int)) = false := decide_eq_false (by simp)
    have other : ¬ (p : Int) = (p + 0 : Nat) - 1 := by omega
    simp only [fillOptions, length, Option.getD_some, Loop.run_of_stop stop, Option.map_some, if_neg other]
    rfl
  | succ rest =>
    have last : ((p + rest : Nat) : Int) = (p + (rest + 1) : Nat) - 1 := by omega
    have nops : (fillNops tcp (p + (rest + 1) : Nat)).run rest (mem, (p : Int)) = _ := run_fillNops mem tcp p rest
    simp only [fillOptions, length, Option.getD_some, Nat.add_sub_cancel]
    rw [nops, Option.map_some, if_pos last, fillBytes, store_append, length_replicate, Nat.add_assoc (tcp + 20) p rest]
    rfl

variable {p : Nat} {s : OptionScan}

theorem scanOption_long {mem : Memory} {tcp : Nat} {kind len : UInt8} {data : List UInt8}
    (holds : mem.Holds (tcp + 20 + p) (kind :: len :: data)) (first : kind ≠ 0) (second : kind ≠ 1)
    (size : len.toNat = data.length + 2) (start stop : Int) (place : s.offset = p) :
    (scanOption mem tcp start stop s).1.offset = ((p + (data.length + 2) : Nat) : Int) ∧
      (scanOption mem tcp start stop s).1.options =
        s.options ++ [{ type := kind.toNat, offset := p, byte := some data }] ∧
      (scanOption mem tcp start stop s).2 = false := by
  obtain ⟨atKind, holds⟩ := holds_cons.mp holds
  obtain ⟨atLen, holds⟩ := holds_cons.mp holds
  have code : option mem tcp p = kind := atKind
  have long : optionLength mem tcp p = ((data.length + 2 : Nat) : Int) := by
    have byte : option mem tcp (p + 1) = len := atLen
    rw [optionLength, byte, size]
    exact if_neg (by omega)
  have behind : (optionPlaces mem tcp p).map (option mem tcp) = data := by
    have count : (((data.length + 2 : Nat) : Int) - 2).toNat = data.length := by omega
    rw [optionPlaces, long, count, map_map]
    refine (map_congr_left fun i _ => ?_).trans ((map_option_range mem tcp (p + 2) data.length).trans holds)
    exact congrArg (option mem tcp) (by push_cast; ring)
  simp only [scanOption, place, code, if_neg first, if_neg second, long, behind, ← Nat.cast_add, and_self]

theorem scanOption_option {mem : Memory} {tcp : Nat}
    (holds : mem.Holds (tcp + 20 + p) opt.bytes) (start stop : Int) (place : s.offset = p) :
    (scanOption mem tcp start stop s).1.offset = ((p + opt.size : Nat) : Int) ∧
      (scanOption mem tcp start stop s).1.options = s.options ++ [opt.entry p] ∧
      (scanOption mem tcp start stop s).2 = false := by
  cases opt with
  | nop =>
    have code : option mem tcp s.offset = 1 := by
      rw [place, option_natCast]
      exact (holds_cons.mp holds).1
    rw [scanOption, code, if_neg (by decide), if_pos rfl, place]
    exact ⟨rfl, rfl, rfl⟩
  | ws value => exact scanOption_long holds (by decide) (by decide) rfl start stop place
  | mss value => exact scanOption_long holds (by decide) (by decide) rfl start stop place
  | ts tsval tsecr => exact scanOption_long holds (by decide) (by decide) rfl start stop place

theorem size_pos (opt : TcpOption) : 0 < opt.size := by
  cases opt <;> exact Nat.succ_pos _

/-- The rounds on options that stand one behind the other. -/
theorem run_options {mem : Memory} {tcp : Nat}
    (holds : mem.Holds (tcp + 20 + p) (opts.flatMap bytes)) {start len : Int}
    (fits : ((p + total opts : Nat) : Int) ≤ start + len) (place : s.offset = p) :
    ∃ s', s'.offset = ((p + total opts : Nat) : Int) ∧
      s'.options = s.options ++ (placed p opts).map (fun place => place.2.entry place.1) ∧
      ∀ fuel, (scanOptions mem tcp start len).run (opts.length + fuel) s =
        (scanOptions mem tcp start len).run fuel s' := by
  induction opts generalizing p s with
  | nil =>
    refine ⟨s, place, by simp [placed], fun fuel => ?_⟩
    rw [length_nil, Nat.zero_add]
  | cons opt opts ih =>
    rw [flatMap_cons, holds_append, length_bytes] at holds
    have behind : mem.Holds (tcp + 20 + (p + opt.size)) (opts.flatMap bytes) := Nat.add_assoc _ p _ ▸ holds.2
    have positive := opt.size_pos
    rw [total_cons, ← Nat.add_assoc] at fits
    obtain ⟨next, options, again⟩ := scanOption_option holds.1 start len place
    obtain ⟨s', last, all, rounds⟩ := ih behind fits next
    refine ⟨s', ?_, ?_, fun fuel => ?_⟩
    · rw [last, total_cons, Nat.add_assoc]
    · rw [all, options, append_assoc]
      rfl
    · have go : (scanOptions mem tcp start len).test s = true := decide_eq_true (by omega)
      rw [length_cons, Nat.add_right_comm, Loop.run_of_again go (congrArg some (Prod.ext rfl again))]
      exact rounds fuel

theorem placed_append (p : Nat) (xs ys : List TcpOption) :
    placed p (xs ++ ys) = placed p xs ++ placed (p + total xs) ys := by
  induction xs generalizing p with
  | nil => rfl
  | cons opt xs ih => rw [cons_append, placed, placed, ih, total_cons, cons_append, Nat.add_assoc]

theorem total_append (xs ys : List TcpOption) : total (xs ++ ys) = total xs + total ys := by
  rw [total, map_append, sum_append, total, total]

theorem total_replicate (n : Nat) : total (List.replicate n nop) = n := by
  rw [total, map_replicate, sum_replicate_nat, size, Nat.mul_one]

theorem placed_replicate (p n : Nat) : (placed p (List.replicate n nop)).map (fun place => place.2.entry place.1) =
    (List.range n).map fun i => { type := 1, offset := p + i } := by
  induction n generalizing p with
  | zero => rfl
  | succ n ih =>
    rw [replicate_succ, placed, map_cons, ih, range_succ_eq_map, map_cons, map_map]
    refine congrArg₂ _ (by simp [entry]) (map_congr_left fun i _ => ?_)
    simp only [size, Function.comp, Nat.cast_succ]
    congr 1
    omega

theorem holds_of_placed {mem : Memory} {tcp : Nat}
    (holds : mem.Holds (tcp + 20 + p) (opts.flatMap bytes)) {place : Nat × TcpOption} (member : place ∈ placed p opts) :
    mem.Holds (tcp + 20 + place.1) place.2.bytes := by
  induction opts generalizing p with
  | nil => cases member
  | cons opt opts ih =>
    rw [flatMap_cons, holds_append, length_bytes] at holds
    rcases mem_cons.mp member with rfl | later
    · exact holds.1
    · exact ih (Nat.add_assoc _ p _ ▸ holds.2) later

theorem mem_of_placed {place : Nat × TcpOption} (member : place ∈ placed p opts) : place.2 ∈ opts := by
  induction opts generalizing p with
  | nil => cases member
  | cons first opts ih =>
    rcases mem_cons.mp member with rfl | later
    · exact .head _
    · exact .tail _ (ih later)

theorem exists_placed (member : opt ∈ opts) : ∃ offset, (offset, opt) ∈ placed p opts := by
  induction opts generalizing p with
  | nil => cases member
  | cons first opts ih =>
    rcases mem_cons.mp member with rfl | later
    · exact ⟨p, .head _⟩
    · obtain ⟨offset, placed⟩ := ih later
      exact ⟨offset, .tail _ placed⟩

/-- A timestamp comes back as a signed number. -/
theorem timestamp_stamp (x : UInt32) :
    timestamp (.ofNat (x.toNat / 2 ^ 24)) (.ofNat (x.toNat / 2 ^ 16)) (.ofNat (x.toNat / 2 ^ 8)) (.ofNat x.toNat) =
      if x < 0x80000000 then (x.toNat : Int) else x.toNat - 2 ^ 32 := by
  have word := x.toNat_lt
  have bound : x < 0x80000000 ↔ x.toNat < 2 ^ 31 := UInt32.lt_iff_toNat_lt
  rw [timestamp, lshift_toNat _ (by decide) (by decide), lshift_toNat _ (by decide) (by decide),
    lshift_toNat _ (by decide) (by decide)]
  simp only [UInt8.toNat_ofNat', Int.reduceToNat, bound]
  split <;> split <;> split <;> split <;> omega

theorem timestamp_stamp_eq_iff (x : UInt32) :
    timestamp (.ofNat (x.toNat / 2 ^ 24)) (.ofNat (x.toNat / 2 ^ 16)) (.ofNat (x.toNat / 2 ^ 8)) (.ofNat x.toNat) =
      (x.toNat : Int) ↔ x < 0x80000000 := by
  rw [timestamp_stamp]
  split
  · exact iff_of_true rfl ‹_›
  · exact iff_of_false (by omega) ‹_›

theorem Returned.kept {mem : Memory} {tcp : Nat} {offset : Int}
    (returned : opt.Returned mem tcp offset) : opt.Kept := by
  cases opt with
  | nop => trivial
  | ws value => cases returned.2
  | mss value => cases returned.2
  | ts tsval tsecr =>
    obtain ⟨first, second⟩ := Prod.mk.inj (Option.some.inj returned.1)
    exact ⟨(timestamp_stamp_eq_iff tsval).mp first, (timestamp_stamp_eq_iff tsecr).mp second⟩

theorem Kept.small (kept : opt.Kept) : opt.Small := by
  cases opt with
  | nop => trivial
  | ws value => trivial
  | mss value => trivial
  | ts tsval tsecr => exact kept

theorem Kept.returned (kept : opt.Kept) {mem : Memory} {tcp offset : Nat}
    (holds : mem.Holds (tcp + 20 + offset) opt.bytes) : opt.Returned mem tcp offset := by
  cases opt with
  | nop => trivial
  | ws value => cases kept
  | mss value => cases kept
  | ts tsval tsecr =>
    have first := (timestamp_stamp_eq_iff tsval).mpr kept.1
    have second := (timestamp_stamp_eq_iff tsecr).mpr kept.2
    have data : ((List.range 8).map fun i : Nat => option mem tcp ((offset : Int) + (i + 2))) =
        stamp tsval ++ stamp tsecr := by
      have behind := (holds_cons.mp (holds_cons.mp holds).2).2
      refine (map_congr_left fun i _ => ?_).trans ((map_option_range mem tcp (offset + 2) 8).trans behind)
      exact congrArg (option mem tcp) (by push_cast; ring)
    refine ⟨?_, ?_⟩
    · exact congrArg some (Prod.ext first second)
    · rw [getTSOption, data]
      exact congrArg some (Prod.ext first second)

theorem scanOption_eol {mem : Memory} {tcp : Nat} (holds : mem.Holds (tcp + 20 + p) [0]) (place : s.offset = p) :
    (scanOption mem tcp 0 ((p + 1 : Nat) : Int) s).1.options = s.options ++ [{ type := 0, offset := p }] ∧
      (scanOption mem tcp 0 ((p + 1 : Nat) : Int) s).2 = true := by
  have code : option mem tcp p = 0 := (holds_cons.mp holds).1
  have last : ¬ (p : Int) < 0 + (((p + 1 : Nat) : Int) - 1) := by omega
  simp only [scanOption, place, code, if_pos, if_neg last, and_true]
  rfl

/-- Options and the fill bytes behind them are parsed. -/
theorem getOptions_eq {mem : Memory} {tcp rest : Nat}
    (length : getVariableLength mem tcp = ((total opts + rest : Nat) : Int))
    (holds : mem.Holds (tcp + 20) (opts.flatMap bytes ++ fillBytes rest)) :
    ∃ fuel scan, getOptions mem tcp fuel none none = some scan ∧
      scan.options = (placed 0 opts).map (fun place => place.2.entry place.1) ++ fill (total opts) rest := by
  have start : ({ offset := 0 } : OptionScan).offset = ((0 : Nat) : Int) := rfl
  cases rest with
  | zero =>
    have fits : ((0 + total opts : Nat) : Int) ≤ 0 + ((total opts + 0 : Nat) : Int) := by omega
    obtain ⟨s, place, options, rounds⟩ := run_options (holds_append.mp holds).1 fits start
    refine ⟨opts.length + 0, s, ?_, by rw [options]; simp [fill]⟩
    rw [getOptions, length]
    exact (rounds 0).trans (Loop.run_of_stop (decide_eq_false (by rw [place]; omega)) 0)
  | succ rest =>
    -- the NOPs of the fill are options like the others, the EOL ends the loop
    have nops : (opts ++ List.replicate rest nop).flatMap bytes = opts.flatMap bytes ++ List.replicate rest 1 := by
      rw [flatMap_append, flatMap_replicate]
      exact congrArg _ (by simp [bytes])
    have all : total (opts ++ List.replicate rest nop) = total opts + rest := by
      rw [total_append, total_replicate]
    rw [fillBytes, ← append_assoc, ← nops, holds_append, length_flatMap_bytes, all] at holds
    have fits : ((0 + total (opts ++ List.replicate rest nop) : Nat) : Int) ≤
        0 + ((total opts + rest + 1 : Nat) : Int) := by omega
    obtain ⟨s, place, options, rounds⟩ := run_options holds.1 fits start
    rw [all, Nat.zero_add] at place
    obtain ⟨last, leave⟩ := scanOption_eol holds.2 place
    have go : (scanOptions mem tcp 0 ((total opts + rest + 1 : Nat) : Int)).test s = true :=
      decide_eq_true (by rw [place]; omega)
    refine ⟨(opts ++ List.replicate rest nop).length + 1,
      (scanOption mem tcp 0 ((total opts + rest + 1 : Nat) : Int) s).1, ?_, ?_⟩
    · rw [getOptions, length]
      exact (rounds 1).trans (Loop.run_of_leave go (congrArg some (Prod.ext rfl leave)) 0)
    · refine last.trans ?_
      rw [options, placed_append, map_append, placed_replicate, Nat.zero_add]
      simp only [nil_append, append_assoc, fill, Nat.cast_add]

/-- Options come back exactly when none of them has a window scale or a maximum segment
size, and all timestamps are below 2^31. -/
theorem tcp_options_round_trip_iff (store : ByteStore) (mem : Memory) (tcp : Nat) (opts : List TcpOption)
    (fits : (total opts : Int) ≤ getVariableLength mem tcp) :
    RoundTrip store mem tcp opts ↔ ∀ opt ∈ opts, opt.Kept := by
  constructor
  · rintro ⟨_, _, _, _, _, -, -, -, returned⟩ opt member
    obtain ⟨offset, place⟩ := exists_placed member
    exact (returned _ place).kept
  · intro kept
    obtain ⟨rest, length⟩ : ∃ rest : Nat, getVariableLength mem tcp = ((total opts + rest : Nat) : Int) :=
      ⟨(getVariableLength mem tcp).toNat - total opts, by omega⟩
    have written : opts.foldl (write store tcp) (mem, 0) =
        (mem.store (tcp + 20) (opts.flatMap bytes), ((0 + total opts : Nat) : Int)) :=
      foldl_write store mem tcp 0 fun opt member => (kept opt member).small
    have filled := fillOptions_eq (mem.store (tcp + 20) (opts.flatMap bytes)) tcp (total opts) rest
      ((getVariableLength_store mem tcp 0 _).trans length)
    have place : (mem.store (tcp + 20) (opts.flatMap bytes)).store (tcp + 20 + total opts) (fillBytes rest) =
        mem.store (tcp + 20) (opts.flatMap bytes ++ fillBytes rest) := by
      rw [store_append, length_flatMap_bytes]
    rw [place] at filled
    have holds := store_holds mem (tcp + 20) (opts.flatMap bytes ++ fillBytes rest)
    obtain ⟨fuel, scan, result, options⟩ :=
      getOptions_eq ((getVariableLength_store mem tcp 0 _).trans length) holds
    rw [RoundTrip, written, Nat.zero_add (total opts)]
    refine ⟨_, _, _, fuel, scan, filled, result, ?_, fun place member => ?_⟩
    · rw [options, length, Int.toNat_natCast, Nat.add_sub_cancel_left]
    · have own := holds_of_placed (p := 0) (holds_append.mp holds).1 member
      obtain ⟨offset, opt⟩ := place
      exact (kept opt (mem_of_placed member)).returned own

theorem tcp_options_round_trip_two :
    RoundTrip ⟨UInt8.ofNat, fun _ _ => rfl⟩ (fun a => if a = 12 then 0xB0 else 0) 0 [nop, ts 1 2, nop, ts 3 4] :=
  (tcp_options_round_trip_iff _ _ 0 [nop, ts 1 2, nop, ts 3 4] (by decide)).mpr (by simp [Kept])

/-- A window scale and a maximum segment size cannot be read at their offsets, and a
timestamp of 2^31 comes back negative. -/
theorem tcp_options_lost : let mem : Memory := fun a => if a = 12 then 0xB0 else 0
    getWSOption (.number 0) = none ∧ getMssOption (.number 0) = none ∧
      getTSOption mem 0 (.entry ((ts 0x80000000 5).entry 0)) = some (-2 ^ 31, 5) ∧
      ∀ opt ∈ [ws 7, mss 1460, ts 0x80000000 5],
        (total [opt] : Int) ≤ getVariableLength mem 0 ∧ ¬ RoundTrip ⟨UInt8.ofNat, fun _ _ => rfl⟩ mem 0 [opt] := by
  refine ⟨rfl, rfl, by decide, fun opt member => ⟨?_, ?_⟩⟩
  · have all : ∀ opt ∈ [ws 7, mss 1460, ts 0x80000000 5],
        (total [opt] : Int) ≤ getVariableLength (fun a => if a = 12 then 0xB0 else 0) 0 := by decide
    exact all opt member
  · rintro ⟨_, _, _, _, _, -, -, -, returned⟩
    have kept := (returned (0, opt) (.head _)).kept
    simp only [mem_cons, not_mem_nil, or_false] at member
    rcases member with rfl | rfl | rfl
    · exact kept
    · exact kept
    · exact absurd kept.1 (by decide)

end TcpOption

end MoonGen
