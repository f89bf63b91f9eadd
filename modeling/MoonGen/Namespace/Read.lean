import Mathlib.Data.List.Basic
import Mathlib.Logic.Function.Basic
import MoonGen.Lib.Machine

namespace MoonGen

open List

/-- The bytes of a C string before its terminating zero. -/
structure CString where
  bytes : List UInt8
  noNul : 0 ∉ bytes
  deriving DecidableEq

/-- A `std::string` in the map of a namespace: the buffer that `c_str` points to,
and what is in it. -/
structure StdString where
  buffer : Nat
  value : CString
  deriving DecidableEq

/-- A read of a key by one task: before its start, waiting for the lock, copying
through the pointer it got, and with the string it hands on, or nil. -/
inductive ReadPc where
  | before
  | called
  | copying (ptr : Nat) (copied : List UInt8)
  | returned (val : Option (List UInt8))
  deriving DecidableEq

def ReadPc.isCopying : ReadPc → Bool
  | .copying _ _ => true
  | _ => false

/-- A namespace with a reader of one key. `during` records what was stored under
the key at the moments of the read, and buffers from `fresh` on are unused. -/
structure Namespace (K : Type) where
  map : K → Option StdString
  fresh : Nat
  pc : ReadPc
  during : List (Option CString)

/-- A step of the reader, or a call by another task, which holds the lock. An
assignment may leave the string in its buffer. The reader sees `stray` where its
pointer leads nowhere. -/
inductive NsAct (K : Type) where
  | store (key : K) (value : CString) (moves : Bool)
  | delete (key : K)
  | read (stray : UInt8)

namespace Namespace

variable {K : Type} [DecidableEq K]

def stored (s : Namespace K) (key : K) : Option CString := (s.map key).map StdString.value

/-- Notes what is stored under the key, as long as the read goes on. -/
def note (s : Namespace K) (key : K) : Namespace K :=
  match s.pc with
  | .before | .returned _ => s
  | .called | .copying _ _ => { s with during := s.during ++ [s.stored key] }

def namespaceStore (s : Namespace K) (key : K) (value : CString) (moves : Bool) : Namespace K :=
  match s.map key, moves with
  | some str, false => { s with map := Function.update s.map key (some { str with value }) }
  | _, _ => { s with map := Function.update s.map key (some ⟨s.fresh, value⟩), fresh := s.fresh + 1 }

def namespaceDelete (s : Namespace K) (key : K) : Namespace K :=
  { s with map := Function.update s.map key none }

/-- `namespace_retrieve`: the pointer to the string under the key. -/
def namespaceRetrieve (s : Namespace K) (key : K) : Option Nat := (s.map key).map StdString.buffer

/-- The byte at a place behind a pointer that was got for a key. Only while the
string is in its buffer this is one of its bytes or the zero behind them. -/
def byteAt (s : Namespace K) (key : K) (ptr i : Nat) (stray : UInt8) : UInt8 :=
  match s.map key with
  | some str => if str.buffer = ptr then (str.value.bytes ++ [0])[i]?.getD stray else stray
  | none => stray

/-- A step of `ns[key]`. -/
def readStep (s : Namespace K) (key : K) (stray : UInt8) : Namespace K :=
  match s.pc with
  | .before => { s with pc := .called, during := [s.stored key] }
  | .called =>
    match s.namespaceRetrieve key with
    | none => { s with pc := .returned none }
    | some ptr => { s with pc := .copying ptr [] }
  | .copying ptr copied =>
    let byte := s.byteAt key ptr copied.length stray
    if byte = 0 then { s with pc := .returned (some copied) }
    else { s with pc := .copying ptr (copied ++ [byte]) }
  | .returned _ => s

/-- The namespace as it serves the reader of `key`. -/
def step (key : K) (s : Namespace K) : NsAct K → Namespace K
  | .store other value moves => (s.namespaceStore other value moves).note key
  | .delete other => (s.namespaceDelete other).note key
  | .read stray => s.readStep key stray

def machine (key : K) : Machine (Namespace K) (NsAct K) where
  start s := s.pc = .before
  enabled _ _ := True
  next := step key

instance (key : K) (s : Namespace K) (a : NsAct K) : Decidable ((machine key).enabled s a) :=
  inferInstanceAs (Decidable True)

/-- No other task stores or deletes the key while the reader copies its string. -/
def LeavesCopy (key : K) (s : Namespace K) : NsAct K → Prop
  | .store other _ _ | .delete other => s.pc.isCopying → other ≠ key
  | .read _ => True

instance (key : K) (s : Namespace K) : (a : NsAct K) → Decidable (LeavesCopy key s a)
  | .store other _ _ | .delete other => inferInstanceAs (Decidable (s.pc.isCopying → other ≠ key))
  | .read _ => inferInstanceAs (Decidable True)

/-- The string handed on was stored under the key at a moment of the read, and nil
means that there was none. -/
def Linearized (s : Namespace K) : Prop :=
  ∀ val, s.pc = .returned val → val ∈ s.during.map (Option.map CString.bytes)

/-- What the reader may rely on at each point of its way. -/
def Tracked (key : K) (s : Namespace K) : Prop :=
  match s.pc with
  | .before => True
  | .called => s.stored key ∈ s.during
  | .copying ptr copied =>
    s.stored key ∈ s.during ∧ ∃ str, s.map key = some str ∧ str.buffer = ptr ∧ copied <+: str.value.bytes
  | .returned val => val ∈ s.during.map (Option.map CString.bytes)

section
variable {key : K} {s : Namespace K}

omit [DecidableEq K] in
/-- A call of another task keeps the reader on track when it leaves the string alone
that is being copied. -/
theorem Tracked.note (tracked : s.Tracked key) {map : K → Option StdString} {fresh : Nat}
    (kept : s.pc.isCopying → map key = s.map key) : (Namespace.note { s with map, fresh } key).Tracked key := by
  unfold Namespace.note Tracked at *
  cases state : s.pc with
  | before => trivial
  | called => exact mem_append_right _ (mem_singleton.mpr rfl)
  | copying ptr copied =>
    rw [state] at tracked
    obtain ⟨-, str, found, rest⟩ := tracked
    exact ⟨mem_append_right _ (mem_singleton.mpr rfl), str, (kept (by rw [state]; rfl)).trans found, rest⟩
  | returned val =>
    rw [state] at tracked
    exact tracked

theorem Tracked.store (tracked : s.Tracked key) {other : K} {value : CString} {moves : Bool}
    (leaves : LeavesCopy key s (.store other value moves)) :
    (step key s (.store other value moves)).Tracked key := by
  unfold step namespaceStore
  dsimp only
  split
  all_goals
    refine tracked.note fun copying => ?_
    exact Function.update_of_ne (Ne.symm (leaves copying)) _ _

theorem Tracked.delete (tracked : s.Tracked key) {other : K} (leaves : LeavesCopy key s (.delete other)) :
    (step key s (.delete other)).Tracked key :=
  tracked.note fun copying => Function.update_of_ne (Ne.symm (leaves copying)) _ _

omit [DecidableEq K] in
/-- Through a pointer that is on track comes the next byte of the string, or the
zero behind it. -/
theorem byteAt_of_tracked {ptr : Nat} {copied rest : List UInt8} {str : StdString} (found : s.map key = some str)
    (buffer : str.buffer = ptr) (bytes : copied ++ rest = str.value.bytes) (stray : UInt8) :
    s.byteAt key ptr copied.length stray = rest.head?.getD 0 := by
  have place : (copied ++ (rest ++ [0]))[copied.length]? = (rest ++ [0]).head? := by
    rw [getElem?_append_right (Nat.le_refl _), Nat.sub_self, head?_eq_getElem?]
  simp only [byteAt, found, buffer, if_true, ← bytes, append_assoc, place]
  cases rest <;> rfl

theorem Tracked.read (tracked : s.Tracked key) (stray : UInt8) : (step key s (.read stray)).Tracked key := by
  cases state : s.pc with
  | before =>
    simp only [step, readStep, state, Tracked]
    exact mem_singleton.mpr rfl
  | called =>
    have current : s.stored key ∈ s.during := by simpa only [Tracked, state] using tracked
    cases found : s.map key with
    | none =>
      have empty : s.stored key = none := by rw [stored, found]; rfl
      simp only [step, readStep, state, namespaceRetrieve, found, Option.map_none, Tracked]
      exact mem_map.mpr ⟨none, empty ▸ current, rfl⟩
    | some str =>
      simp only [step, readStep, state, namespaceRetrieve, found, Option.map_some, Tracked]
      exact ⟨current, str, rfl, rfl, nil_prefix⟩
  | copying ptr copied =>
    simp only [Tracked, state] at tracked
    obtain ⟨current, str, found, buffer, rest, bytes⟩ := tracked
    have byte := byteAt_of_tracked found buffer bytes stray
    simp only [step, readStep, state, byte]
    cases rest with
    | nil =>
      have value : s.stored key = some str.value := by rw [stored, found]; rfl
      rw [append_nil] at bytes
      exact mem_map.mpr ⟨some str.value, value ▸ current, by rw [bytes]; rfl⟩
    | cons next rest =>
      have nonzero : next ≠ 0 := by
        rintro rfl
        exact str.value.noNul (bytes ▸ by simp)
      simp only [head?_cons, Option.getD_some, nonzero, if_false, Tracked]
      exact ⟨current, str, found, buffer, rest, by rw [append_assoc]; exact bytes⟩
  | returned val =>
    simp only [step, readStep, state]
    exact tracked

end

/-- A read is linearizable in every run in which the other tasks leave the string
alone that is being copied. -/
theorem namespace_read_linearizable (key : K) {s : Namespace K}
    (reach : ((machine key).guarded (LeavesCopy key)).Reach s) : s.Linearized := by
  have tracked : s.Tracked key := by
    refine reach.invariant (I := fun s => s.Tracked key) ?_ ?_
    · intro s before
      have before : s.pc = .before := before
      simp only [Tracked, before]
    · rintro s (⟨other, value, moves⟩ | other | stray) tracked ⟨-, leaves⟩
      · exact tracked.store leaves
      · exact tracked.delete leaves
      · exact tracked.read stray
  intro val returned
  simpa only [Tracked, returned] using tracked

/-- A namespace with a string of two bytes under the key that is read. -/
def twoBytes : Namespace Bool where
  map key := if key then some ⟨0, ⟨[97, 97], by decide⟩⟩ else none
  fresh := 1
  pc := .before
  during := []

theorem namespace_read_linearizable_stored : ∃ s,
    ((machine true).guarded (LeavesCopy true)).Reach s ∧ s.pc = .returned (some [97, 98]) ∧ s.Linearized := by
  have run : ((machine true).guarded (LeavesCopy true)).leadsTo (fun s => s.pc = .returned (some [97, 98])) twoBytes
      [.read 0, .store true ⟨[97, 98], by decide⟩ false, .read 0, .read 0, .store false ⟨[99], by decide⟩ true, .read 0,
        .read 0] = true := by
    decide +kernel
  obtain ⟨s, reach, test⟩ := Machine.reach_of_leadsTo run (.start rfl)
  exact ⟨s, reach, of_decide_eq_true test, namespace_read_linearizable true reach⟩

/-- A store into the buffer between the copies of two bytes gives a string that
was never stored. -/
theorem namespace_read_torn : ∃ s, (machine true).Reach s ∧ s.pc = .returned (some [97, 98]) ∧ ¬s.Linearized := by
  have run : (machine true).leadsTo
      (fun s => s.pc = .returned (some [97, 98]) ∧ some [97, 98] ∉ s.during.map (Option.map CString.bytes)) twoBytes
      [.read 0, .read 0, .read 0, .store true ⟨[98, 98], by decide⟩ false, .read 0, .read 0] = true := by
    decide +kernel
  obtain ⟨s, reach, test⟩ := Machine.reach_of_leadsTo run (.start rfl)
  obtain ⟨returned, never⟩ := of_decide_eq_true test
  exact ⟨s, reach, returned, fun linearized => never (linearized _ returned)⟩

end Namespace

end MoonGen
