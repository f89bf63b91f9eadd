import Mathlib.Logic.Function.Basic
import MoonGen.Lib.Machine

namespace MoonGen

open Function List

/-- Where a counter writes: the standard output, a file that its user opened, or one that the
module opened, by the number of the call to `io.open`. -/
inductive StatsOutput
  | stdout
  | users (file : Nat)
  | opened (handle : Nat)
deriving DecidableEq, Repr

/-- What `newCounter` takes for a file. -/
inductive FileArgument
  | none
  | file (file : Nat)
  | fileName (fileName : String)
deriving DecidableEq, Repr

inductive StatsFormatter
  | plain
  | csv
  | silent
deriving DecidableEq, Repr

def formatters (format : String) : Option StatsFormatter :=
  if format = "plain" then some .plain
  else if format = "CSV" ∨ format = "csv" then some .csv
  else if format = "nil" then some .silent
  else none

inductive StatsEvent
  | init
  | update
  | final
deriving DecidableEq, Repr

inductive StatsError
  | closedFile
  | nilIndex
  | fatal (message : String)
deriving DecidableEq, Repr

structure OpenFile where
  refCount : Nat
  file : Nat
deriving DecidableEq, Repr

/-- A counter, with whether `lastUpdate` is set and whether it is finalized. -/
structure StatsCounter where
  format : StatsFormatter
  file : StatsOutput
  closeFile : Option String
  lastUpdate : Bool := false
  finalized : Bool := false
deriving DecidableEq, Repr

/-- The tables of the module, all counters, and for each file that the module opened whether it
is still open. -/
structure StatsFiles where
  openFiles : String → Option OpenFile := fun _ => none
  headersShown : List StatsOutput := []
  counters : List StatsCounter := []
  handles : List Bool := []

/-- Whether a counter has to do with a file name. -/
def StatsCounter.uses (fileName : String) (ctr : StatsCounter) : Bool :=
  !ctr.finalized && ctr.closeFile = some fileName

inductive StatsCall
  | newCounter (format : Option String) (file : FileArgument)
  | update (counter : Nat) (dontPrint : Bool)
  | finalize (counter : Nat)
deriving DecidableEq, Repr

namespace StatsFiles

/-- The part of `newCounter` that finds the file. Opening a file succeeds: a counter with the nil of a failing
`io.open` raises at its first write. -/
def findFile (s : StatsFiles) : FileArgument → StatsOutput × Option String × StatsFiles
  | .none => (.stdout, none, s)
  | .file file => (.users file, none, s)
  | .fileName fileName =>
    match s.openFiles fileName with
    | some entry =>
      (.opened entry.file, some fileName,
        { s with
          openFiles := update s.openFiles fileName (some { entry with refCount := entry.refCount + 1 }) })
    | none =>
      (.opened s.handles.length, some fileName,
        { s with
          handles := s.handles ++ [true]
          openFiles := update s.openFiles fileName (some { refCount := 1, file := s.handles.length }) })

def newCounter (s : StatsFiles) (format : Option String) (file : FileArgument) : Except StatsError StatsFiles :=
  let format := format.getD "plain"
  let (file, closeFile, s) := s.findFile file
  match formatters format with
  | none => .error (.fatal ("Unsupported output format " ++ format))
  | some format => .ok { s with counters := s.counters ++ [{ format, file, closeFile }] }

/-- The method `write` of a file. -/
def write (s : StatsFiles) : StatsOutput → Except StatsError StatsFiles
  | .stdout => .ok s
  | .users _ => .ok s
  | .opened handle => if s.handles[handle]? = some true then .ok s else .error .closedFile

def printStats (s : StatsFiles) (ctr : StatsCounter) (event : StatsEvent) : Except StatsError StatsFiles :=
  match ctr.format with
  | .silent => .ok s
  | .plain => if event = .init then .ok s else s.write ctr.file
  | .csv =>
    if event = .init then
      if ctr.file ∈ s.headersShown then .ok s
      else { s with headersShown := ctr.file :: s.headersShown }.write ctr.file
    else s.write ctr.file

def updateCounter (s : StatsFiles) (c : Nat) (ctr : StatsCounter) (dontPrint : Bool) : Except StatsError StatsFiles :=
  if !ctr.lastUpdate then
    { s with counters := s.counters.set c { ctr with lastUpdate := true } }.printStats ctr .init
  else if !dontPrint then s.printStats ctr .update
  else .ok s

/-- The end of `finalizeCounter`. An entry stays in the table when its file is closed. -/
def closeFile (s : StatsFiles) : Option String → Except StatsError StatsFiles
  | none => .ok s
  | some fileName =>
    match s.openFiles fileName with
    | none => .error .nilIndex
    | some entry =>
      if entry.refCount = 1 then
        if s.handles[entry.file]? = some true then .ok { s with handles := s.handles.set entry.file false }
        else .error .closedFile
      else
        .ok { s with
          openFiles := update s.openFiles fileName (some { entry with refCount := entry.refCount - 1 }) }

def finalizeCounter (s : StatsFiles) (c : Nat) (ctr : StatsCounter) : Except StatsError StatsFiles := do
  let s ← s.updateCounter c ctr true
  let s ← s.printStats ctr .final
  { s with counters := s.counters.set c { ctr with lastUpdate := true, finalized := true } }.closeFile ctr.closeFile

def step (s : StatsFiles) : StatsCall → Except StatsError StatsFiles
  | .newCounter format file => s.newCounter format file
  | .update c dontPrint =>
    match s.counters[c]? with
    | none => .error .nilIndex
    | some ctr => s.updateCounter c ctr dontPrint
  | .finalize c =>
    match s.counters[c]? with
    | none => .error .nilIndex
    | some ctr => s.finalizeCounter c ctr

/-- Whether a counter is there and not finalized. -/
def live (s : StatsFiles) (c : Nat) : Bool :=
  match s.counters[c]? with
  | none => false
  | some ctr => !ctr.finalized

/-- A counter is finalized at most once, and not used after that. -/
def Allowed (s : StatsFiles) : StatsCall → Prop
  | .newCounter _ _ => True
  | .update c _ => s.live c = true
  | .finalize c => s.live c = true

instance (s : StatsFiles) : ∀ call, Decidable (s.Allowed call)
  | .newCounter _ _ => isTrue trivial
  | .update c _ => inferInstanceAs (Decidable (s.live c = true))
  | .finalize c => inferInstanceAs (Decidable (s.live c = true))

/-- How many counters that are not finalized use a file name. -/
def users (s : StatsFiles) (fileName : String) : Nat := s.counters.countP (·.uses fileName)

/-- The files that are open are those that a counter still uses. -/
def OpenWhileUsed (s : StatsFiles) : Prop :=
  ∀ handle < s.handles.length,
    s.handles[handle]? = some true ↔ ∃ ctr ∈ s.counters, ctr.file = .opened handle ∧ ctr.finalized = false

instance (s : StatsFiles) : Decidable s.OpenWhileUsed :=
  inferInstanceAs (Decidable (∀ handle < s.handles.length,
    s.handles[handle]? = some true ↔ ∃ ctr ∈ s.counters, ctr.file = .opened handle ∧ ctr.finalized = false))

/-- Whether a counter is made for a file name that was in use and is not any more. -/
def reopens (s : StatsFiles) : StatsCall → Bool
  | .newCounter format (.fileName fileName) =>
    (formatters (format.getD "plain")).isSome && (s.openFiles fileName).isSome && s.users fileName = 0
  | _ => false

/-- What is asked of a call: nothing is written to a file that is closed, and from call to call
a file is open as long as it is used. -/
def Proper (out : Except StatsError StatsFiles) : Prop :=
  match out with
  | .ok t => t.OpenWhileUsed
  | .error e => e ≠ .closedFile

instance : ∀ out, Decidable (Proper out)
  | .ok t => inferInstanceAs (Decidable t.OpenWhileUsed)
  | .error e => inferInstanceAs (Decidable (e ≠ .closedFile))

/-- The handle of a file name, once there is one. -/
def handleOf (s : StatsFiles) (fileName : String) : Option Nat := (s.openFiles fileName).map OpenFile.file

/-- A counter has the handle of its file name, and no handle of the module's without one. -/
def Fits (handleOf : String → Option Nat) (ctr : StatsCounter) : Prop :=
  match ctr.closeFile with
  | none => ∀ handle, ctr.file ≠ .opened handle
  | some fileName => ∃ handle, handleOf fileName = some handle ∧ ctr.file = .opened handle

/-- Each handle is that of one file name. -/
structure OnePerName (handleOf : String → Option Nat) (handles : Nat) : Prop where
  within : ∀ {fileName handle}, handleOf fileName = some handle → handle < handles
  distinct : ∀ {fileName fileName' handle}, handleOf fileName = some handle → handleOf fileName' = some handle →
    fileName = fileName'
  known : ∀ handle < handles, ∃ fileName, handleOf fileName = some handle

/-- What an entry of the table says about its file: how many use it, as long as any do. -/
def Counts (users : Nat) (entry : OpenFile) (handles : List Bool) : Prop :=
  if users = 0 then handles[entry.file]? = some false
  else handles[entry.file]? = some true ∧ entry.refCount = users

structure Counted (s : StatsFiles) : Prop where
  fits : ∀ ctr ∈ s.counters, Fits s.handleOf ctr
  handles : OnePerName s.handleOf s.handles.length
  counts : ∀ fileName entry, s.openFiles fileName = some entry → Counts (s.users fileName) entry s.handles

theorem counted_empty : Counted {} where
  fits _ member := absurd member not_mem_nil
  handles := ⟨nofun, nofun, fun handle inside => absurd inside (Nat.not_lt_zero handle)⟩
  counts := nofun

variable {s : StatsFiles} {fileName : String}

theorem users_pos :
    0 < s.users fileName ↔ ∃ ctr ∈ s.counters, ctr.closeFile = some fileName ∧ ctr.finalized = false := by
  rw [users, countP_pos_iff]
  refine exists_congr fun ctr => and_congr_right fun _ => ?_
  simp [StatsCounter.uses, and_comm]

variable {ctr : StatsCounter}

theorem Counted.user_iff (counted : s.Counted) {handle : Nat}
    (found : s.handleOf fileName = some handle) (member : ctr ∈ s.counters) :
    ctr.file = .opened handle ↔ ctr.closeFile = some fileName := by
  have fits := counted.fits ctr member
  rw [Fits] at fits
  split at fits
  · rename_i unnamed
    simp only [unnamed, fits, reduceCtorEq]
  · rename_i other name
    obtain ⟨handle', found', file⟩ := fits
    rw [file, name, StatsOutput.opened.injEq, Option.some_inj]
    constructor
    · rintro rfl
      exact counted.handles.distinct found' found
    · rintro rfl
      exact Option.some.inj (found'.symm.trans found)

theorem handleOf_eq_some {handle : Nat} :
    s.handleOf fileName = some handle ↔ ∃ entry, s.openFiles fileName = some entry ∧ entry.file = handle :=
  Option.map_eq_some_iff

theorem Counted.openWhileUsed (counted : s.Counted) : s.OpenWhileUsed := by
  intro handle inside
  obtain ⟨fileName, found⟩ := counted.handles.known handle inside
  have same : (∃ ctr ∈ s.counters, ctr.file = .opened handle ∧ ctr.finalized = false) ↔ 0 < s.users fileName := by
    rw [users_pos]
    exact exists_congr fun ctr => and_congr_right fun member => by rw [counted.user_iff found member]
  obtain ⟨entry, entered, rfl⟩ := handleOf_eq_some.mp found
  have counts := counted.counts fileName entry entered
  rw [Counts] at counts
  rw [same]
  split at counts
  · rename_i unused
    simp [counts, unused]
  · rename_i used
    simp only [counts.1, Nat.pos_of_ne_zero used]

/-- The file is open if the module opened it. -/
def Writable (s : StatsFiles) (out : StatsOutput) : Prop :=
  ∀ handle, out = .opened handle → s.handles[handle]? = some true

theorem Writable.write {out : StatsOutput} (writable : s.Writable out) : s.write out = .ok s := by
  cases out with
  | stdout => rfl
  | users file => rfl
  | opened handle => rw [StatsFiles.write, if_pos (writable handle rfl)]

theorem Writable.printStats (writable : s.Writable ctr.file) (event : StatsEvent) :
    ∃ shown, s.printStats ctr event = .ok { s with headersShown := shown } := by
  have header : { s with headersShown := ctr.file :: s.headersShown }.Writable ctr.file := writable
  rw [StatsFiles.printStats]
  cases ctr.format <;> simp only [writable.write, header.write] <;> (try split) <;> (try split) <;> exact ⟨_, rfl⟩

variable {c : Nat}

theorem Writable.updateCounter (writable : s.Writable ctr.file)
    (found : s.counters[c]? = some ctr) (dontPrint : Bool) :
    ∃ shown, s.updateCounter c ctr dontPrint =
      .ok { s with headersShown := shown, counters := s.counters.set c { ctr with lastUpdate := true } } := by
  cases updated : ctr.lastUpdate with
  | false =>
    have again : { s with counters := s.counters.set c { ctr with lastUpdate := true } }.Writable ctr.file := writable
    obtain ⟨shown, print⟩ := again.printStats .init
    refine ⟨shown, ?_⟩
    rw [StatsFiles.updateCounter, updated, Bool.not_false, if_pos rfl, print]
  | true =>
    have same : s.counters.set c { ctr with lastUpdate := true } = s.counters := by
      obtain ⟨inside, rfl⟩ := List.getElem?_eq_some_iff.mp found
      have unchanged : { s.counters[c] with lastUpdate := true } = s.counters[c] := by rw [← updated]
      rw [unchanged, set_getElem_self inside]
    obtain ⟨shown, print⟩ := writable.printStats .update
    rw [StatsFiles.updateCounter, updated, same]
    cases dontPrint with
    | false => exact ⟨shown, print⟩
    | true => exact ⟨s.headersShown, rfl⟩

/-- A counter that is not finalized writes to a file that is open. -/
theorem Counted.writable (counted : s.Counted) (member : ctr ∈ s.counters)
    (unfinalized : ctr.finalized = false) : s.Writable ctr.file := by
  intro handle file
  have fits := counted.fits ctr member
  rw [Fits] at fits
  split at fits
  · exact absurd file (fits handle)
  · rename_i fileName name
    obtain ⟨handle', found, file'⟩ := fits
    have inside := counted.handles.within found
    rw [file, StatsOutput.opened.injEq] at file'
    exact (counted.openWhileUsed handle (file' ▸ inside)).mpr ⟨ctr, member, file, unfinalized⟩

theorem users_set (found : s.counters[c]? = some ctr) (ctr' : StatsCounter) (fileName : String) :
    (s.counters.set c ctr').countP (·.uses fileName) + (ctr.uses fileName).toNat =
      s.users fileName + (ctr'.uses fileName).toNat := by
  obtain ⟨inside, rfl⟩ := List.getElem?_eq_some_iff.mp found
  have positive : s.counters[c].uses fileName = true → 0 < s.counters.countP (·.uses fileName) := fun uses =>
    countP_pos_iff.mpr ⟨_, getElem_mem inside, uses⟩
  simp only [users, countP_set inside]
  cases uses : s.counters[c].uses fileName with
  | false => cases ctr'.uses fileName <;> simp
  | true =>
    have := positive uses
    cases ctr'.uses fileName <;> simp <;> omega

variable {t : StatsFiles}

/-- The invariant of a state with other users of the files, but the same handles. -/
theorem Counted.with_counts (counted : s.Counted) (sameHandles : t.handleOf = s.handleOf)
    (sameNumber : t.handles.length = s.handles.length)
    (old : ∀ ctr ∈ t.counters, ∃ before ∈ s.counters, ctr.closeFile = before.closeFile ∧ ctr.file = before.file)
    (counts : ∀ fileName entry, t.openFiles fileName = some entry → Counts (t.users fileName) entry t.handles) :
    t.Counted where
  fits ctr member := by
    obtain ⟨before, there, name, file⟩ := old ctr member
    rw [sameHandles, Fits, name, file]
    exact counted.fits before there
  handles := by
    rw [sameHandles, sameNumber]
    exact counted.handles
  counts := counts

theorem mem_set_same {counters : List StatsCounter} {ctr' : StatsCounter}
    (found : counters[c]? = some ctr) (name : ctr'.closeFile = ctr.closeFile) (file : ctr'.file = ctr.file) :
    ∀ other ∈ counters.set c ctr', ∃ before ∈ counters, other.closeFile = before.closeFile ∧
      other.file = before.file := by
  intro other there
  rcases mem_or_eq_of_mem_set there with before | rfl
  · exact ⟨other, before, rfl, rfl⟩
  · exact ⟨ctr, mem_of_getElem? found, name, file⟩

theorem Counted.touch (counted : s.Counted) (found : s.counters[c]? = some ctr) (shown : List StatsOutput) :
    { s with headersShown := shown, counters := s.counters.set c { ctr with lastUpdate := true } }.Counted := by
  refine counted.with_counts rfl rfl (mem_set_same found rfl rfl) fun fileName entry entered => ?_
  have same := Nat.add_right_cancel (users_set found { ctr with lastUpdate := true } fileName)
  have counts := counted.counts fileName entry entered
  rw [← same] at counts
  exact counts

theorem file_update_refCount {table : String → Option OpenFile} {entry : OpenFile}
    (entered : table fileName = some entry) (refCount : Nat) (other : String) :
    (update table fileName (some { entry with refCount }) other).map OpenFile.file =
      (table other).map OpenFile.file := by
  by_cases same : other = fileName
  · rw [same, update_self, entered]
    rfl
  · rw [update_of_ne same]

/-- What holds of the entries of a table that is changed at one name. -/
theorem forall_update {table : String → Option OpenFile} {new : OpenFile}
    {P : String → OpenFile → Prop} (own : P fileName new)
    (others : ∀ other, other ≠ fileName → ∀ entry, table other = some entry → P other entry) (other : String)
    (entry : OpenFile) (entered : update table fileName (some new) other = some entry) : P other entry := by
  by_cases which : other = fileName
  · rw [which, update_self] at entered
    cases entered
    rwa [which]
  · rw [update_of_ne which] at entered
    exact others other which entry entered

/-- The end of a counter, which leaves its file to those that are left. -/
theorem Counted.closeFile (counted : s.Counted) (member : ctr ∈ s.counters)
    (unfinalized : ctr.finalized = false) (shown : List StatsOutput) {counters : List StatsCounter}
    (old : ∀ ctr ∈ counters, ∃ before ∈ s.counters, ctr.closeFile = before.closeFile ∧ ctr.file = before.file)
    (left : ∀ fileName, counters.countP (·.uses fileName) + (ctr.uses fileName).toNat = s.users fileName) :
    ∃ t, { s with headersShown := shown, counters := counters }.closeFile ctr.closeFile = .ok t ∧ t.Counted := by
  have others : ∀ other, ctr.closeFile ≠ some other → counters.countP (·.uses other) = s.users other := by
    intro other different
    simpa [StatsCounter.uses, different] using left other
  have fits := counted.fits ctr member
  rw [Fits] at fits
  split at fits
  · rename_i unnamed
    refine ⟨_, by rw [unnamed]; rfl, ?_⟩
    refine counted.with_counts rfl rfl old fun other entry entered => ?_
    rw [users, others other (by simp [unnamed])]
    exact counted.counts other entry entered
  · rename_i fileName name
    obtain ⟨handle, found, -⟩ := fits
    obtain ⟨entry, entered, rfl⟩ := handleOf_eq_some.mp found
    have one : counters.countP (·.uses fileName) + 1 = s.users fileName := by
      simpa [StatsCounter.uses, name, unfinalized] using left fileName
    have counts := counted.counts fileName entry entered
    rw [Counts, if_neg (by omega)] at counts
    simp only [name, StatsFiles.closeFile, entered]
    by_cases last : entry.refCount = 1
    · refine ⟨_, by rw [if_pos last, if_pos counts.1], ?_⟩
      refine counted.with_counts rfl List.length_set old fun other entry' entered' => ?_
      show Counts (counters.countP (·.uses other)) entry' (s.handles.set entry.file false)
      by_cases which : other = fileName
      · subst which
        cases entered.symm.trans entered'
        rw [Counts, if_pos (by omega), getElem?_set_self (counted.handles.within found)]
      · have apart : entry.file ≠ entry'.file := fun equal =>
          which (counted.handles.distinct (handleOf_eq_some.mpr ⟨entry', entered', equal.symm⟩) found)
        rw [others other (by rw [name]; simpa using Ne.symm which), Counts, getElem?_set_ne apart]
        exact counted.counts other entry' entered'
    · refine ⟨_, if_neg last, ?_⟩
      refine counted.with_counts (funext (file_update_refCount entered _)) rfl old (forall_update ?_ ?_)
      · rw [Counts, if_neg (by show counters.countP (·.uses fileName) ≠ 0; omega)]
        exact ⟨counts.1, by show entry.refCount - 1 = counters.countP (·.uses fileName); omega⟩
      · intro other which entry' entered'
        rw [users, others other (by rw [name]; simpa using Ne.symm which)]
        exact counted.counts other entry' entered'

theorem Counted.finalizeCounter (counted : s.Counted)
    (found : s.counters[c]? = some ctr) (unfinalized : ctr.finalized = false) :
    ∃ t, s.finalizeCounter c ctr = .ok t ∧ t.Counted := by
  have member := mem_of_getElem? found
  have writable := counted.writable member unfinalized
  obtain ⟨shown, update⟩ := writable.updateCounter found true
  have again : { s with headersShown := shown, counters := s.counters.set c { ctr with lastUpdate := true } }.Writable
      ctr.file := writable
  obtain ⟨shown', print⟩ := again.printStats .final
  obtain ⟨t, closed, after⟩ := @Counted.closeFile s ctr counted member unfinalized shown'
    (s.counters.set c { ctr with lastUpdate := true, finalized := true }) (mem_set_same found rfl rfl)
    (users_set found { ctr with lastUpdate := true, finalized := true })
  refine ⟨t, ?_, after⟩
  rw [StatsFiles.finalizeCounter, update]
  show (StatsFiles.printStats _ ctr .final >>= _) = _
  rw [print]
  show StatsFiles.closeFile _ _ = _
  rw [set_set, closed]

theorem users_concat (counters : List StatsCounter) (ctr : StatsCounter) (fileName : String) :
    (counters ++ [ctr]).countP (·.uses fileName) = counters.countP (·.uses fileName) + (ctr.uses fileName).toNat := by
  rw [countP_append, countP_singleton]
  cases ctr.uses fileName <;> rfl

theorem uses_new {format : StatsFormatter} {file : StatsOutput} {closeFile : Option String} :
    StatsCounter.uses fileName { format, file, closeFile } = decide (closeFile = some fileName) := rfl

theorem Fits.mono {handleOf handleOf' : String → Option Nat} (fits : Fits handleOf ctr)
    (kept : ∀ fileName handle, handleOf fileName = some handle → handleOf' fileName = some handle) :
    Fits handleOf' ctr := by
  rw [Fits] at fits ⊢
  split at fits
  · exact fits
  · obtain ⟨handle, found, file⟩ := fits
    exact ⟨handle, kept _ _ found, file⟩

/-- The invariant of a state with a counter more. -/
theorem Counted.concat (counted : s.Counted) (counters : t.counters = s.counters ++ [ctr])
    (kept : ∀ fileName handle, s.handleOf fileName = some handle → t.handleOf fileName = some handle)
    (fits : Fits t.handleOf ctr) (handles : OnePerName t.handleOf t.handles.length)
    (counts : ∀ fileName entry, t.openFiles fileName = some entry →
      Counts (s.users fileName + (ctr.uses fileName).toNat) entry t.handles) : t.Counted where
  fits other member := by
    rw [counters] at member
    rcases mem_append.mp member with before | new
    · exact (counted.fits other before).mono kept
    · rwa [mem_singleton.mp new]
  handles := handles
  counts fileName entry entered := by
    rw [users, counters, users_concat]
    exact counts fileName entry entered

theorem Counted.newCounter_unnamed (counted : s.Counted) (format : StatsFormatter) {file : StatsOutput}
    (notOpened : ∀ handle, file ≠ .opened handle) :
    ({ s with counters := s.counters ++ [{ format, file, closeFile := none }] } : StatsFiles).Counted := by
  refine counted.concat rfl (fun _ _ found => found) notOpened counted.handles fun fileName entry entered => ?_
  rw [uses_new, decide_eq_false nofun]
  exact counted.counts fileName entry entered

theorem Counted.newCounter_shares (counted : s.Counted) (format : StatsFormatter)
    {entry : OpenFile} (entered : s.openFiles fileName = some entry) (inUse : s.users fileName ≠ 0)
    (after : t = { s with
      openFiles := update s.openFiles fileName (some { entry with refCount := entry.refCount + 1 })
      counters := s.counters ++ [{ format, file := .opened entry.file, closeFile := some fileName }] }) :
    t.Counted := by
  have same : t.handleOf = s.handleOf := by
    rw [after]
    exact funext (file_update_refCount entered _)
  have handles : t.handles = s.handles := by rw [after]
  refine counted.concat (by rw [after]) (fun _ _ found => by rwa [same]) ?_
    (by rw [same, handles]; exact counted.handles) ?_
  · rw [same]
    exact ⟨entry.file, handleOf_eq_some.mpr ⟨entry, entered, rfl⟩, rfl⟩
  · rw [after]
    refine forall_update ?_ fun other which entry' entered' => ?_
    · have counts := counted.counts fileName entry entered
      rw [Counts, if_neg inUse] at counts
      rw [uses_new, Counts, if_neg (by simp)]
      exact ⟨counts.1, by simpa using counts.2⟩
    · rw [uses_new, decide_eq_false (by simpa using Ne.symm which)]
      exact counted.counts other entry' entered'

theorem OnePerName.add {handleOf : String → Option Nat} {handles : Nat} (one : OnePerName handleOf handles)
    (fresh : handleOf fileName = none) :
    OnePerName (update handleOf fileName (some handles)) (handles + 1) := by
  have old : ∀ {other handle}, update handleOf fileName (some handles) other = some handle →
      (other = fileName ∧ handle = handles) ∨ (handleOf other = some handle ∧ handle < handles) := by
    intro other handle found
    by_cases which : other = fileName
    · rw [which, update_self, Option.some_inj] at found
      exact .inl ⟨which, found.symm⟩
    · rw [update_of_ne which] at found
      exact .inr ⟨found, one.within found⟩
  refine ⟨fun found => ?_, fun found found' => ?_, fun handle inside => ?_⟩
  · obtain ⟨-, rfl⟩ | ⟨-, less⟩ := old found <;> omega
  · obtain ⟨name, last⟩ | ⟨before, less⟩ := old found <;> obtain ⟨name', last'⟩ | ⟨before', less'⟩ := old found'
    · rw [name, name']
    · omega
    · omega
    · exact one.distinct before before'
  · rcases Nat.lt_succ_iff_lt_or_eq.mp inside with less | rfl
    · obtain ⟨other, found⟩ := one.known handle less
      refine ⟨other, ?_⟩
      rwa [update_of_ne (by rintro rfl; rw [fresh] at found; cases found)]
    · exact ⟨fileName, update_self ..⟩

theorem Counted.users_of_fresh (counted : s.Counted) (fresh : s.openFiles fileName = none) : s.users fileName = 0 := by
  by_contra used
  obtain ⟨ctr, member, name, -⟩ := users_pos.mp (Nat.pos_of_ne_zero used)
  have fits := counted.fits ctr member
  simp only [Fits, name, handleOf, fresh, Option.map_none] at fits
  obtain ⟨_, wrong, -⟩ := fits
  cases wrong

theorem Counted.newCounter_opens (counted : s.Counted) (format : StatsFormatter) (fresh : s.openFiles fileName = none)
    (after : t = { s with
      handles := s.handles ++ [true]
      openFiles := update s.openFiles fileName (some { refCount := 1, file := s.handles.length })
      counters := s.counters ++ [{ format, file := .opened s.handles.length, closeFile := some fileName }] }) :
    t.Counted := by
  have absent : s.handleOf fileName = none := by rw [handleOf, fresh, Option.map_none]
  have same : t.handleOf = update s.handleOf fileName (some s.handles.length) := by
    rw [after]
    funext other
    show (update s.openFiles fileName _ other).map OpenFile.file = _
    by_cases which : other = fileName
    · rw [which, update_self, update_self, Option.map_some]
    · rw [update_of_ne which, update_of_ne which, handleOf]
  have handles : t.handles = s.handles ++ [true] := by rw [after]
  refine counted.concat (by rw [after]) (fun other handle found => ?_) ?_ ?_ ?_
  · rwa [same, update_of_ne (by rintro rfl; rw [absent] at found; cases found)]
  · rw [same]
    exact ⟨_, update_self .., rfl⟩
  · rw [same, handles, length_append, length_singleton]
    exact counted.handles.add absent
  · rw [after]
    refine forall_update ?_ fun other which entry entered => ?_
    · rw [uses_new, counted.users_of_fresh fresh, Counts, if_neg (by simp)]
      exact ⟨getElem?_concat_length, by simp⟩
    · have within := counted.handles.within (handleOf_eq_some.mpr ⟨entry, entered, rfl⟩)
      rw [uses_new, decide_eq_false (by simpa using Ne.symm which), Counts, getElem?_append_left within]
      exact counted.counts other entry entered

theorem exists_of_live (live : s.live c = true) : ∃ ctr, s.counters[c]? = some ctr ∧ ctr.finalized = false := by
  rw [StatsFiles.live] at live
  split at live
  · cases live
  · rename_i ctr found
    exact ⟨ctr, found, by simpa using live⟩

/-- A call that keeps the count is a proper one. -/
theorem proper_of_counted {call : StatsCall} (next : s.step call = .ok t)
    (counted : t.Counted) : Proper (s.step call) ∧ ∀ u, s.step call = .ok u → u.Counted := by
  rw [next]
  exact ⟨counted.openWhileUsed, fun u same => by cases same; exact counted⟩

/-- A counter that shares a file of the past gets one that is closed. -/
theorem Counted.reopened (counted : s.Counted) (format : StatsFormatter)
    {entry : OpenFile} (entered : s.openFiles fileName = some entry) (unused : s.users fileName = 0)
    (table : String → Option OpenFile) :
    ¬OpenWhileUsed { s with
      openFiles := table
      counters := s.counters ++ [{ format, file := .opened entry.file, closeFile := some fileName }] } := by
  intro openWhileUsed
  have counts := counted.counts fileName entry entered
  rw [Counts, if_pos unused] at counts
  have within := counted.handles.within (handleOf_eq_some.mpr ⟨entry, entered, rfl⟩)
  have isOpen := (openWhileUsed entry.file within).mpr
    ⟨_, mem_append_right _ (mem_singleton_self _), rfl, rfl⟩
  cases counts.symm.trans isOpen

theorem step_newCounter {format : Option String} {file : FileArgument} {fmt : StatsFormatter}
    {out : StatsOutput} {closeFile : Option String} (known : formatters (format.getD "plain") = some fmt)
    (found : s.findFile file = (out, closeFile, t)) :
    s.step (.newCounter format file) =
      .ok { t with counters := t.counters ++ [{ format := fmt, file := out, closeFile }] } := by
  simp only [step, StatsFiles.newCounter, found, known]

theorem Counted.newCounter (counted : s.Counted) (format : Option String) (file : FileArgument) :
    (Proper (s.step (.newCounter format file)) ↔ s.reopens (.newCounter format file) = false) ∧
      (s.reopens (.newCounter format file) = false → ∀ t, s.step (.newCounter format file) = .ok t → t.Counted) := by
  cases known : formatters (format.getD "plain") with
  | none =>
    have fails : s.step (.newCounter format file) =
        .error (.fatal ("Unsupported output format " ++ format.getD "plain")) := by
      simp only [step, StatsFiles.newCounter, known]
    have first : s.reopens (.newCounter format file) = false := by
      cases file <;> simp [reopens, known]
    rw [fails]
    exact ⟨iff_of_true nofun first, nofun⟩
  | some fmt =>
    cases file with
    | none =>
      have next := step_newCounter known (show s.findFile .none = (.stdout, none, s) from rfl)
      obtain ⟨proper, after⟩ := proper_of_counted next (counted.newCounter_unnamed fmt nofun)
      exact ⟨iff_of_true proper rfl, fun _ => after⟩
    | file file =>
      have next := step_newCounter known (show s.findFile (.file file) = (.users file, none, s) from rfl)
      obtain ⟨proper, after⟩ := proper_of_counted next (counted.newCounter_unnamed fmt nofun)
      exact ⟨iff_of_true proper rfl, fun _ => after⟩
    | fileName fileName =>
      cases entered : s.openFiles fileName with
      | none =>
        have next := step_newCounter known
          (show s.findFile (.fileName fileName) = _ by simp only [findFile, entered]; rfl)
        obtain ⟨proper, after⟩ := proper_of_counted next (counted.newCounter_opens fmt entered rfl)
        exact ⟨iff_of_true proper (by simp [reopens, entered]), fun _ => after⟩
      | some entry =>
        have next := step_newCounter known
          (show s.findFile (.fileName fileName) = _ by simp only [findFile, entered]; rfl)
        by_cases unused : s.users fileName = 0
        · have again : s.reopens (.newCounter format (.fileName fileName)) = true := by
            simp [reopens, known, entered, unused]
          rw [next, again]
          exact ⟨iff_of_false (counted.reopened fmt entered unused _) nofun, nofun⟩
        · obtain ⟨proper, after⟩ := proper_of_counted next (counted.newCounter_shares fmt entered unused rfl)
          exact ⟨iff_of_true proper (by simp [reopens, unused]), fun _ => after⟩

/-- One call of a counter that is not finalized, from a state that keeps the count. -/
theorem Counted.step (counted : s.Counted) {call : StatsCall} (allowed : s.Allowed call) :
    (Proper (s.step call) ↔ s.reopens call = false) ∧
      (s.reopens call = false → ∀ t, s.step call = .ok t → t.Counted) := by
  cases call with
  | newCounter format file => exact counted.newCounter format file
  | update c dontPrint =>
    obtain ⟨ctr, found, unfinalized⟩ := exists_of_live allowed
    obtain ⟨shown, update⟩ :=
      (counted.writable (mem_of_getElem? found) unfinalized).updateCounter found dontPrint
    have call : s.step (.update c dontPrint) = s.updateCounter c ctr dontPrint := by simp only [StatsFiles.step, found]
    obtain ⟨proper, after⟩ := proper_of_counted (call.trans update) (counted.touch found shown)
    exact ⟨iff_of_true proper rfl, fun _ => after⟩
  | finalize c =>
    obtain ⟨ctr, found, unfinalized⟩ := exists_of_live allowed
    obtain ⟨t, finalize, kept⟩ := counted.finalizeCounter found unfinalized
    have call : s.step (.finalize c) = s.finalizeCounter c ctr := by simp only [StatsFiles.step, found]
    obtain ⟨proper, after⟩ := proper_of_counted (call.trans finalize) kept
    exact ⟨iff_of_true proper rfl, fun _ => after⟩

end StatsFiles

open StatsFiles Component

/-- On every run, all writes go to open files and each file is open as long as it is used,
exactly when no counter is made for a file name that was in use and is not any more. -/
theorem statsFiles_proper_iff (calls : List StatsCall)
    (allowed : Along StatsFiles.step (fun s call _ => s.Allowed call) {} calls) :
    Along StatsFiles.step (fun _ _ out => Proper out) {} calls ↔
      Along StatsFiles.step (fun s call _ => s.reopens call = false) {} calls :=
  along_iff (fun _ _ counted now => counted.step now) counted_empty allowed

theorem statsFiles_proper_shared :
    Along StatsFiles.step (fun _ _ out => Proper out) {}
      [.newCounter (some "csv") (.fileName "stats.csv"), .newCounter none .none,
        .newCounter none (.fileName "stats.csv"),
        .update 0 false, .update 2 false, .finalize 0, .update 2 false, .finalize 1, .finalize 2] :=
  (statsFiles_proper_iff [.newCounter (some "csv") (.fileName "stats.csv"), .newCounter none .none,
    .newCounter none (.fileName "stats.csv"), .update 0 false, .update 2 false, .finalize 0, .update 2 false,
    .finalize 1, .finalize 2] (by decide +kernel)).mpr (by decide +kernel)

/-- A second counter for a file whose only user is finalized gets the closed file, and its first
line fails. -/
theorem statsFiles_reopened : let calls : List StatsCall := [.newCounter none (.fileName "stats.txt"), .finalize 0,
      .newCounter none (.fileName "stats.txt"), .update 1 false, .update 1 false]
    Along StatsFiles.step (fun s call _ => s.Allowed call) {} calls ∧
      (match calls.foldlM StatsFiles.step {} with
        | .ok _ => none
        | .error e => some e) = some .closedFile ∧
      ¬Along StatsFiles.step (fun _ _ out => Proper out) {} calls := by
  decide +kernel

end MoonGen
