import Mathlib.Data.Finset.Insert
import Mathlib.Data.Fintype.Defs

namespace MoonGen

/-- The four flags of the namespace that say in which mode the link is. -/
inductive Mode where
  | rccIdle
  | shortDRX
  | longDRX
  | continuousReception
  deriving DecidableEq, Repr

instance : Fintype Mode where
  elems := {.rccIdle, .shortDRX, .longDRX, .continuousReception}
  complete := by intro m; cases m <;> decide

/-- The namespace that the forward tasks share. A flag that was never stored
reads as false. -/
structure Ns where
  rccIdle : Bool
  shortDRX : Bool
  longDRX : Bool
  continuousReception : Bool
  lastPacketTime : Nat
  firstRccConnected : Bool
  deriving DecidableEq, Repr

def Ns.empty : Ns := ⟨false, false, false, false, 0, false⟩

def Ns.get (ns : Ns) : Mode → Bool
  | .rccIdle => ns.rccIdle
  | .shortDRX => ns.shortDRX
  | .longDRX => ns.longDRX
  | .continuousReception => ns.continuousReception

def Ns.set (ns : Ns) (value : Bool) : Mode → Ns
  | .rccIdle => { ns with rccIdle := value }
  | .shortDRX => { ns with shortDRX := value }
  | .longDRX => { ns with longDRX := value }
  | .continuousReception => { ns with continuousReception := value }

/-- Exactly one flag is true. -/
def Ns.Only (ns : Ns) (m : Mode) : Prop := ∀ k, ns.get k = true ↔ k = m

section
variable (ns : Ns) (value : Bool) (m k : Mode)

@[simp] theorem Ns.get_empty : Ns.empty.get k = false := by cases k <;> rfl

@[simp] theorem Ns.get_set : (ns.set value m).get k = if k = m then value else ns.get k := by
  cases m <;> cases k <;> rfl

@[simp] theorem Ns.set_firstRccConnected : (ns.set value m).firstRccConnected = ns.firstRccConnected := by
  cases m <;> rfl

@[simp] theorem Ns.get_with_lastPacketTime (time : Nat) : { ns with lastPacketTime := time }.get k = ns.get k := by
  cases k <;> rfl

@[simp] theorem Ns.get_with_firstRccConnected (first : Bool) :
    { ns with firstRccConnected := first }.get k = ns.get k := by
  cases k <;> rfl

end

/-- The two modes of discontinuous reception that end by an inactivity timer. -/
inductive Drx where
  | short
  | long
  deriving DecidableEq, Repr

/-- The modes in which a task sleeps through most of a cycle. -/
inductive Sleep where
  | drx (d : Drx)
  | idle
  deriving DecidableEq, Repr

def Drx.mode : Drx → Mode
  | .short => .shortDRX
  | .long => .longDRX

def Sleep.mode : Sleep → Mode
  | .drx d => d.mode
  | .idle => .rccIdle

/-- The mode changes of the loop. Each clears the flag of one mode and then
sets the flag of another. -/
inductive Change where
  | quiet
  | wake (m : Sleep)
  | expire (d : Drx)
  deriving DecidableEq, Repr

def Change.source : Change → Mode
  | .quiet => .continuousReception
  | .wake m => m.mode
  | .expire d => d.mode

def Change.target : Change → Mode
  | .quiet => .shortDRX
  | .wake _ => .continuousReception
  | .expire .short => .longDRX
  | .expire .long => .rccIdle

theorem Ns.only_set {ns : Ns} (unset : ∀ k, ns.get k = false) (m : Mode) : (ns.set true m).Only m := by
  intro k
  rw [Ns.get_set]
  split <;> simp_all

theorem Ns.Only.clear {ns : Ns} {m : Mode} (only : ns.Only m) (k : Mode) : (ns.set false m).get k = false := by
  rw [Ns.get_set]
  split
  · rfl
  · rename_i other
    exact Bool.eq_false_iff.mpr fun active => other ((only k).mp active)

/-- Clearing another flag keeps the mode. -/
theorem Ns.Only.clear_other {ns : Ns} {m other : Mode} (only : ns.Only m) (differs : m ≠ other) :
    (ns.set false other).Only m := by
  intro k
  rw [Ns.get_set]
  split
  · rename_i same
    simp [same, differs.symm]
  · exact only k

end MoonGen
