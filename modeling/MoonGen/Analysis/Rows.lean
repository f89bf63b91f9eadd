import Mathlib.Algebra.Order.Field.Rat

namespace MoonGen

open List

/-- A row of a trace as far as the analysis reads it. A column that holds no number, where the
analysis makes one of it, gives `none`. -/
structure TraceRow (ι : Type*) where
  time : ℚ
  iface : Int
  proto : Option Int
  length : Nat
  id : ι
deriving DecidableEq

/-- What ends a script. -/
inductive PythonError
  | indexError
  | attributeError
  | zeroDivisionError
deriving DecidableEq, Repr

variable {ι : Type*}

/-- The rows of two seconds, from one second behind the first row of the file on. -/
def rowsInterval2sec (file : List (TraceRow ι)) : List (TraceRow ι) :=
  match file with
  | [] => []
  | first :: _ => file.filter fun row => 1 ≤ row.time - first.time && row.time - first.time ≤ 3

/-- The interfaces of the two sides. -/
structure Interfaces where
  interfaceSource : Int
  interfaceDestination : Int

/-- Whether a row sends a packet. -/
def Interfaces.sends [DecidableEq ι] (o : Interfaces) (id : ι) (row : TraceRow ι) : Bool :=
  row.iface = o.interfaceSource && row.id = id

def Interfaces.receives [DecidableEq ι] (o : Interfaces) (id : ι) (row : TraceRow ι) : Bool :=
  row.iface = o.interfaceDestination && row.id = id

/-- Each row with the rows behind it. -/
def withLater {α : Type*} : List α → List (α × List α)
  | [] => []
  | row :: later => (row, later) :: withLater later

theorem map_fst_withLater {α : Type*} (rows : List α) : (withLater rows).map Prod.fst = rows := by
  induction rows with
  | nil => rfl
  | cons row later ih => rw [withLater, map_cons, ih]

theorem forall_split_map {α β : Type*} (f : α → β) {xs : List α} {Q : List β → β → Prop} :
    (∀ done c rest, xs.map f = done ++ c :: rest → Q done c) ↔
      ∀ done c rest, xs = done ++ c :: rest → Q (done.map f) (f c) := by
  constructor
  · intro each done c rest whole
    exact each _ _ (rest.map f) (by rw [whole, map_append, map_cons])
  · rintro each before row later whole
    obtain ⟨done, tail, parts, rfl, behind⟩ := map_eq_append_iff.mp whole
    obtain ⟨c, rest, rfl, rfl, -⟩ := map_eq_cons_iff.mp behind
    exact each done c rest parts

theorem forall_withLater {α : Type*} {rows : List α} {Q : List α → α → Prop} :
    (∀ done c rest, withLater rows = done ++ c :: rest → Q (done.map Prod.fst) c.1) ↔
      ∀ before row later, rows = before ++ row :: later → Q before row := by
  rw [← forall_split_map, map_fst_withLater]

theorem mem_later {α : Type*} {rows : List α} {done rest : List (α × List α)} {c d : α × List α}
    (whole : withLater rows = done ++ c :: rest) (earlier : d ∈ done) : c.1 ∈ d.2 := by
  induction rows generalizing done with
  | nil => simp [withLater] at whole
  | cons row later ih =>
    cases earlier with
    | head done =>
      obtain ⟨rfl, tail⟩ := List.cons.inj whole
      rw [← map_fst_withLater later, tail]
      exact mem_map_of_mem (mem_append_right _ mem_cons_self)
    | tail e member => exact ih (List.cons.inj whole).2 member

end MoonGen
