import MoonGen.Header.Fields
import MoonGen.Lib.Loop

namespace MoonGen

open List

/-- An option as `getOptions` returns it. -/
structure OptionEntry where
  type : Int
  offset : Int
  byte : Option (List UInt8) := none
  error : Option String := none
deriving DecidableEq

/-- The state of the loop of `getOptions`. The offsets that were read are recorded. -/
structure OptionScan where
  offset : Int
  options : List OptionEntry := []
  reads : List Int := []
deriving DecidableEq

namespace TcpHeader

section
variable (mem : Memory) (tcp : Nat)

/-- `self.options[offset]` in the header at an address. -/
def option (offset : Int) : UInt8 := mem (tcp + 20 + offset).toNat

def getVariableLength : Int :=
  let r := ((getDataOffset mem tcp : Int) - 5) * 4
  if r ≤ 0 then 0 else r

/-- The length byte of an option, at least 1. -/
def optionLength (offset : Int) : Int :=
  let len : Int := (option mem tcp (offset + 1)).toNat
  if len < 1 then 1 else len

/-- The offsets of the bytes behind the length byte of an option. -/
def optionPlaces (offset : Int) : List Int :=
  (List.range (optionLength mem tcp offset - 2).toNat).map fun i : Nat => offset + 1 + (i + 1)

/-- A round of the loop of `getOptions`. -/
def scanOption (start len : Int) (s : OptionScan) : OptionScan × Bool :=
  let code := option mem tcp s.offset
  let entry : OptionEntry := { type := code.toNat, offset := s.offset }
  if code = 0 then
    let last := start + (len - 1)
    let missing : List OptionEntry :=
      if s.offset < last then
        [{ type := -1, offset := s.offset, error := some ("missing " ++ toString (last - s.offset) ++ "b") }]
      else []
    ({ s with options := s.options ++ entry :: missing, reads := s.reads ++ [s.offset] }, true)
  else if code = 1 then
    ({ offset := s.offset + 1, options := s.options ++ [entry], reads := s.reads ++ [s.offset] }, false)
  else
    let places := optionPlaces mem tcp s.offset
    ({ offset := s.offset + optionLength mem tcp s.offset
       options := s.options ++ [{ entry with byte := some (places.map (option mem tcp)) }]
       reads := s.reads ++ s.offset :: (s.offset + 1) :: places }, false)

/-- The loop of `getOptions`. -/
def scanOptions (start len : Int) : Loop OptionScan where
  test s := s.offset < start + len
  body s := some (scanOption mem tcp start len s)

/-- `tcpHeader:getOptions`, if it takes at most `fuel` rounds. -/
def getOptions (fuel : Nat) (offset len : Option Int) : Option OptionScan :=
  let start := offset.getD 0
  (scanOptions mem tcp start (len.getD (getVariableLength mem tcp))).run fuel { offset := start }

end

/-- An option that has a length byte. -/
def LongOption (mem : Memory) (tcp : Nat) (p : Int) : Prop := option mem tcp p ≠ 0 ∧ option mem tcp p ≠ 1

/-- The places at which options begin, up to the end of the options. -/
inductive OptionAt (mem : Memory) (tcp : Nat) (start stop : Int) : Int → Prop
  | first : OptionAt mem tcp start stop start
  | nop {p : Int} : OptionAt mem tcp start stop p → p < stop → option mem tcp p = 1 → OptionAt mem tcp start stop (p + 1)
  | long {p : Int} : OptionAt mem tcp start stop p → p < stop → LongOption mem tcp p →
      OptionAt mem tcp start stop (p + optionLength mem tcp p)

/-- No option reaches beyond the end. -/
def OptionsFit (mem : Memory) (tcp : Nat) (start stop : Int) : Prop :=
  ∀ p, OptionAt mem tcp start stop p → p < stop → LongOption mem tcp p →
    p + 1 < stop ∧ p + optionLength mem tcp p ≤ stop

section
variable {mem : Memory} {tcp : Nat} {start len : Int}

theorem optionLength_pos (mem : Memory) (tcp : Nat) (p : Int) : 0 < optionLength mem tcp p := by
  rw [optionLength]
  split <;> omega

theorem mem_optionPlaces {p i : Int} : i ∈ optionPlaces mem tcp p ↔ p + 2 ≤ i ∧ i < p + optionLength mem tcp p := by
  simp only [optionPlaces, mem_map, mem_range]
  constructor
  · rintro ⟨k, inside, rfl⟩
    omega
  · rintro ⟨lower, upper⟩
    exact ⟨(i - p - 2).toNat, by omega, by omega⟩

theorem scanOption_cases (mem : Memory) (tcp : Nat) (start len : Int) (s : OptionScan) :
    (option mem tcp s.offset = 0 ∧ (scanOption mem tcp start len s).2 = true ∧
      (scanOption mem tcp start len s).1.offset = s.offset ∧
      (scanOption mem tcp start len s).1.reads = s.reads ++ [s.offset]) ∨
    (option mem tcp s.offset = 1 ∧ (scanOption mem tcp start len s).2 = false ∧
      (scanOption mem tcp start len s).1.offset = s.offset + 1 ∧
      (scanOption mem tcp start len s).1.reads = s.reads ++ [s.offset]) ∨
    (LongOption mem tcp s.offset ∧ (scanOption mem tcp start len s).2 = false ∧
      (scanOption mem tcp start len s).1.offset = s.offset + optionLength mem tcp s.offset ∧
      (scanOption mem tcp start len s).1.reads =
        s.reads ++ s.offset :: (s.offset + 1) :: optionPlaces mem tcp s.offset) := by
  by_cases eol : option mem tcp s.offset = 0
  · refine .inl ⟨eol, ?_⟩
    rw [scanOption, if_pos eol]
    exact ⟨rfl, rfl, rfl⟩
  · by_cases nop : option mem tcp s.offset = 1
    · refine .inr (.inl ⟨nop, ?_⟩)
      rw [scanOption, if_neg eol, if_pos nop]
      exact ⟨rfl, rfl, rfl⟩
    · refine .inr (.inr ⟨⟨eol, nop⟩, ?_⟩)
      rw [scanOption, if_neg eol, if_neg nop]
      exact ⟨rfl, rfl, rfl⟩

theorem scanOption_reads (mem : Memory) (tcp : Nat) (start len : Int) (s : OptionScan) {i : Int}
    (member : i ∈ s.reads) : i ∈ (scanOption mem tcp start len s).1.reads := by
  rcases scanOption_cases mem tcp start len s with ⟨-, -, -, reads⟩ | ⟨-, -, -, reads⟩ | ⟨-, -, -, reads⟩ <;>
    exact reads ▸ mem_append_left _ member

/-- Each round but the last takes at least one byte. -/
theorem scanOptions_ends (mem : Memory) (tcp : Nat) (start len : Int) :
    ∃ scan, (scanOptions mem tcp start len).run len.toNat { offset := start } = some scan := by
  refine Loop.exists_run (I := fun _ => True) (fun s => (start + len - s.offset).toNat) (fun s _ test => ?_) trivial
    (le_of_eq (congrArg Int.toNat (add_sub_cancel_left _ _)))
  have before : s.offset < start + len := of_decide_eq_true test
  have long := optionLength_pos mem tcp s.offset
  refine ⟨by omega, (scanOption mem tcp start len s).1, (scanOption mem tcp start len s).2, rfl, fun again => ⟨trivial, ?_⟩⟩
  rcases scanOption_cases mem tcp start len s with ⟨-, leave, -⟩ | ⟨-, -, next, -⟩ | ⟨-, -, next, -⟩
  · exact absurd (again.symm.trans leave) Bool.false_ne_true
  · rw [next]
    omega
  · rw [next]
    omega

theorem OptionAt.start_le {p : Int} (place : OptionAt mem tcp start (start + len) p) : start ≤ p := by
  induction place with
  | first => exact le_rfl
  | nop _ _ _ ih => omega
  | @long p _ _ _ ih =>
    have long := optionLength_pos mem tcp p
    omega

theorem OptionAt.reaches {p : Int} (place : OptionAt mem tcp start (start + len) p) :
    ∃ s, (scanOptions mem tcp start len).Reaches { offset := start } s ∧ s.offset = p := by
  induction place with
  | first => exact ⟨_, .start, rfl⟩
  | @nop p _ before nop ih =>
    obtain ⟨s, reach, rfl⟩ := ih
    rcases scanOption_cases mem tcp start len s with ⟨eol, -⟩ | ⟨-, again, next, -⟩ | ⟨long, -⟩
    · exact absurd (eol.symm.trans nop) (by decide)
    · exact ⟨_, .next reach (decide_eq_true before) (congrArg some (Prod.ext rfl again)), next⟩
    · exact absurd nop long.2
  | @long p _ before long ih =>
    obtain ⟨s, reach, rfl⟩ := ih
    rcases scanOption_cases mem tcp start len s with ⟨eol, -⟩ | ⟨nop, -⟩ | ⟨-, again, next, -⟩
    · exact absurd eol long.1
    · exact absurd nop long.2
    · exact ⟨_, .next reach (decide_eq_true before) (congrArg some (Prod.ext rfl again)), next⟩

/-- What an option makes the loop read is read at the end. -/
theorem OptionAt.reads {p : Int} (place : OptionAt mem tcp start (start + len) p) (before : p < start + len)
    (long : LongOption mem tcp p) {fuel : Nat} {scan : OptionScan}
    (result : (scanOptions mem tcp start len).run fuel { offset := start } = some scan) {i : Int}
    (member : i = p + 1 ∨ i ∈ optionPlaces mem tcp p) : i ∈ scan.reads := by
  obtain ⟨s, reach, rfl⟩ := place.reaches
  rcases scanOption_cases mem tcp start len s with ⟨eol, -⟩ | ⟨nop, -⟩ | ⟨-, again, -, reads⟩
  · exact absurd eol long.1
  · exact absurd nop long.2
  · have next := reach.next (decide_eq_true before) (congrArg some (Prod.ext rfl again))
    obtain ⟨rest, result⟩ := next.run result
    refine Loop.run_invariant (I := fun s => i ∈ s.reads) ?_ ?_ result
    · intro s t leave inside _ way
      obtain rfl : _ = t := congrArg Prod.fst (Option.some.inj way)
      exact scanOption_reads mem tcp start len s inside
    rw [reads]
    rcases member with rfl | member
    · simp
    · simp [member]

theorem reads_inside_of_fit (fit : OptionsFit mem tcp start (start + len)) {fuel : Nat} {scan : OptionScan}
    (result : (scanOptions mem tcp start len).run fuel { offset := start } = some scan) :
    ∀ i ∈ scan.reads, start ≤ i ∧ i < start + len := by
  have both : OptionAt mem tcp start (start + len) scan.offset ∧ ∀ i ∈ scan.reads, start ≤ i ∧ i < start + len := by
    refine Loop.run_invariant (I := fun s => OptionAt mem tcp start (start + len) s.offset ∧
      ∀ i ∈ s.reads, start ≤ i ∧ i < start + len) ?_ ⟨.first, forall_mem_nil _⟩ result
    rintro s t leave ⟨place, inside⟩ test way
    obtain rfl : _ = t := congrArg Prod.fst (Option.some.inj way)
    have before : s.offset < start + len := of_decide_eq_true test
    have lower := place.start_le
    have kind : ∀ i ∈ s.reads ++ [s.offset], start ≤ i ∧ i < start + len := by
      intro i member
      rcases mem_append.mp member with old | new
      · exact inside i old
      · rw [mem_singleton.mp new]
        exact ⟨lower, before⟩
    rcases scanOption_cases mem tcp start len s with ⟨-, -, next, reads⟩ | ⟨nop, -, next, reads⟩ | ⟨long, -, next, reads⟩
    · rw [next, reads]
      exact ⟨place, kind⟩
    · rw [next, reads]
      exact ⟨place.nop before nop, kind⟩
    · rw [next, reads]
      refine ⟨place.long before long, fun i member => ?_⟩
      obtain ⟨second, last⟩ := fit s.offset place before long
      simp only [mem_append, mem_cons, mem_optionPlaces] at member
      rcases member with old | rfl | rfl | places
      · exact inside i old
      · exact ⟨lower, before⟩
      · omega
      · omega
  exact both.2

/-- The loop ends in time, and it stays in the area exactly when no option reaches
beyond the end. -/
theorem tcp_options_reads_iff (mem : Memory) (tcp : Nat) (offset len : Option Int) :
    (∃ scan, getOptions mem tcp (len.getD (getVariableLength mem tcp)).toNat offset len = some scan ∧
      ∀ i ∈ scan.reads, offset.getD 0 ≤ i ∧ i < offset.getD 0 + len.getD (getVariableLength mem tcp)) ↔
    OptionsFit mem tcp (offset.getD 0) (offset.getD 0 + len.getD (getVariableLength mem tcp)) := by
  constructor
  · rintro ⟨scan, result, inside⟩ p place before long
    have second := inside (p + 1) (place.reads before long result (.inl rfl))
    refine ⟨second.2, ?_⟩
    by_contra beyond
    have last := inside (p + optionLength mem tcp p - 1)
      (place.reads before long result (.inr (mem_optionPlaces.mpr (by omega))))
    omega
  · intro fit
    obtain ⟨scan, result⟩ := scanOptions_ends mem tcp (offset.getD 0) (len.getD (getVariableLength mem tcp))
    exact ⟨scan, result, reads_inside_of_fit fit result⟩

/-- An option area of four bytes, of which the last one is the kind of an option with a
length byte. -/
theorem tcp_options_beyond : let mem : Memory := fun a => if a = 12 then 0x60 else if a = 23 then 3 else 1
    getVariableLength mem 0 = 4 ∧ (getOptions mem 0 4 none none).map OptionScan.reads = some [0, 1, 2, 3, 4] := by
  decide

end

end TcpHeader

end MoonGen
