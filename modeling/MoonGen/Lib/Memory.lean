import Mathlib.Data.List.Basic
import Mathlib.Algebra.Order.Group.Nat

/-- Memory as seen from a base address. -/
def Memory := Nat → UInt8

namespace Memory

open List

def slice (mem : Memory) (a : Nat) : Nat → List UInt8
  | 0 => []
  | n + 1 => mem a :: slice mem (a + 1) n

/-- The number in `k` bytes, least significant byte first. -/
def word (mem : Memory) (a : Nat) : Nat → Nat
  | 0 => 0
  | k + 1 => (mem a).toNat + 256 * word mem (a + 1) k

def u16 (mem : Memory) (a : Nat) : UInt16 := .ofNat (mem.word a 2)

def u32 (mem : Memory) (a : Nat) : UInt32 := .ofNat (mem.word a 4)

def u64 (mem : Memory) (a : Nat) : UInt64 := .ofNat (mem.word a 8)

def leBytes : Nat → Nat → List UInt8
  | 0, _ => []
  | k + 1, v => .ofNat v :: leBytes k (v / 256)

/-- A store of one byte. -/
def set (mem : Memory) (a : Nat) (x : UInt8) : Memory := fun b => if b = a then x else mem b

/-- A store of one byte behind the other. -/
def store (mem : Memory) (a : Nat) : List UInt8 → Memory
  | [] => mem
  | x :: xs => store (mem.set a x) (a + 1) xs

/-- Stores at one place after the other. -/
def storeAll (mem : Memory) (writes : List (Nat × List UInt8)) : Memory :=
  writes.foldl (fun mem write => mem.store write.1 write.2) mem

def Holds (mem : Memory) (a : Nat) (xs : List UInt8) : Prop := mem.slice a xs.length = xs

/-- A file mapped to the base address. What lies behind it is not known. -/
def ofFile (file : List UInt8) (beyond : Memory) : Memory := fun a => file[a]?.getD (beyond a)

@[simp] theorem set_self (mem : Memory) (a : Nat) (x : UInt8) : mem.set a x a = x := if_pos rfl

theorem set_of_ne (mem : Memory) {a b : Nat} (other : b ≠ a) (x : UInt8) : mem.set a x b = mem b := if_neg other

@[simp] theorem length_leBytes (k v : Nat) : (leBytes k v).length = k := by
  induction k generalizing v with
  | zero => rfl
  | succ k ih => rw [leBytes, length_cons, ih]

variable {mem : Memory} {a : Nat}

@[simp] theorem length_slice (mem : Memory) (a n : Nat) : (mem.slice a n).length = n := by
  induction n generalizing a with
  | zero => rfl
  | succ n ih => rw [slice, length_cons, ih]

theorem holds_cons {x : UInt8} {xs : List UInt8} : mem.Holds a (x :: xs) ↔ mem a = x ∧ mem.Holds (a + 1) xs := by
  simp only [Holds, length_cons, slice, List.cons.injEq]

theorem holds_append {xs ys : List UInt8} :
    mem.Holds a (xs ++ ys) ↔ mem.Holds a xs ∧ mem.Holds (a + xs.length) ys := by
  induction xs generalizing a with
  | nil => simp [Holds, slice]
  | cons x xs ih =>
    have place : a + 1 + xs.length = a + (x :: xs).length := by rw [length_cons]; omega
    rw [cons_append, holds_cons, holds_cons, ih, place, and_assoc]

/-- A store changes no other byte. -/
theorem store_of_outside (mem : Memory) {a b : Nat} {xs : List UInt8} (outside : b < a ∨ a + xs.length ≤ b) :
    mem.store a xs b = mem b := by
  induction xs generalizing mem a with
  | nil => rfl
  | cons x xs ih =>
    rw [length_cons] at outside
    rw [store, ih _ (by omega), set_of_ne _ (by omega)]

theorem store_append (mem : Memory) (a : Nat) (xs ys : List UInt8) :
    mem.store a (xs ++ ys) = (mem.store a xs).store (a + xs.length) ys := by
  induction xs generalizing mem a with
  | nil => rfl
  | cons x xs ih =>
    have place : a + 1 + xs.length = a + (x :: xs).length := by rw [length_cons]; omega
    rw [cons_append, store, ih, place, store]

theorem store_holds (mem : Memory) (a : Nat) (xs : List UInt8) : (mem.store a xs).Holds a xs := by
  induction xs generalizing mem a with
  | nil => rfl
  | cons x xs ih =>
    refine holds_cons.mpr ⟨?_, ih _ _⟩
    rw [store, store_of_outside _ (.inl (Nat.lt_succ_self a)), set_self]

theorem slice_congr {mem' : Memory} {n : Nat} (same : ∀ b, a ≤ b → b < a + n → mem' b = mem b) :
    mem'.slice a n = mem.slice a n := by
  induction n generalizing a with
  | zero => rfl
  | succ n ih =>
    rw [slice, slice, same a (Nat.le_refl a) (by omega), ih fun b after before => same b (by omega) (by omega)]

theorem Holds.store {xs ys : List UInt8} (holds : mem.Holds a xs) {b : Nat}
    (apart : b + ys.length ≤ a ∨ a + xs.length ≤ b) : (mem.store b ys).Holds a xs := by
  refine (slice_congr fun c after before => ?_).trans holds
  exact store_of_outside mem (by omega)

theorem Holds.storeAll {xs : List UInt8} {writes : List (Nat × List UInt8)} (holds : mem.Holds a xs)
    (apart : ∀ write ∈ writes, write.1 + write.2.length ≤ a ∨ a + xs.length ≤ write.1) :
    (mem.storeAll writes).Holds a xs := by
  induction writes generalizing mem with
  | nil => exact holds
  | cons write writes ih =>
    obtain ⟨first, later⟩ := forall_mem_cons.mp apart
    exact ih (holds.store first) later

/-- Stores that do not overlap are all there afterwards. -/
theorem storeAll_holds (mem : Memory) {writes : List (Nat × List UInt8)}
    (apart : writes.Pairwise fun v w => w.1 + w.2.length ≤ v.1 ∨ v.1 + v.2.length ≤ w.1) {write : Nat × List UInt8}
    (member : write ∈ writes) : (mem.storeAll writes).Holds write.1 write.2 := by
  induction writes generalizing mem with
  | nil => cases member
  | cons first writes ih =>
    obtain ⟨alone, others⟩ := pairwise_cons.mp apart
    rcases mem_cons.mp member with rfl | later
    · exact (store_holds mem _ _).storeAll alone
    · exact ih (mem.store first.1 first.2) others later

theorem take_slice {n m : Nat} (within : n ≤ m) : (mem.slice a m).take n = mem.slice a n := by
  induction n generalizing a m with
  | zero => rfl
  | succ n ih =>
    obtain ⟨m, rfl⟩ : ∃ k, m = k + 1 := ⟨m - 1, by omega⟩
    rw [slice, slice, take_succ_cons, ih (by omega)]

theorem Holds.slice_eq {xs : List UInt8} (holds : mem.Holds a xs) {n : Nat} (within : n ≤ xs.length) :
    mem.slice a n = xs.take n := by
  rw [← take_slice within, holds]

theorem word_of_holds {k v : Nat} (holds : mem.Holds a (leBytes k v)) : mem.word a k = v % 256 ^ k := by
  induction k generalizing a v with
  | zero => rw [word, Nat.pow_zero, Nat.mod_one]
  | succ k ih =>
    obtain ⟨byte, rest⟩ := holds_cons.mp holds
    rw [word, byte, ih rest, Nat.pow_succ, Nat.mul_comm (256 ^ k), Nat.mod_mul]
    rfl

theorem u16_of_holds {x : UInt16} (holds : mem.Holds a (leBytes 2 x.toNat)) : mem.u16 a = x := by
  have small : x.toNat < 256 ^ 2 := x.toNat_lt
  rw [u16, word_of_holds holds, Nat.mod_eq_of_lt small]
  exact UInt16.ofNat_toNat

theorem u32_of_holds {x : UInt32} (holds : mem.Holds a (leBytes 4 x.toNat)) : mem.u32 a = x := by
  have small : x.toNat < 256 ^ 4 := x.toNat_lt
  rw [u32, word_of_holds holds, Nat.mod_eq_of_lt small]
  exact UInt32.ofNat_toNat

theorem u64_of_holds {x : UInt64} (holds : mem.Holds a (leBytes 8 x.toNat)) : mem.u64 a = x := by
  have small : x.toNat < 256 ^ 8 := x.toNat_lt
  rw [u64, word_of_holds holds, Nat.mod_eq_of_lt small]
  exact UInt64.ofNat_toNat

theorem ofFile_holds (before xs : List UInt8) (beyond : Memory) :
    (ofFile (before ++ xs) beyond).Holds before.length xs := by
  induction xs generalizing before with
  | nil => rfl
  | cons x xs ih =>
    have rest := ih (before ++ [x])
    rw [append_assoc, singleton_append, length_append, length_singleton] at rest
    exact holds_cons.mpr ⟨by simp [ofFile], rest⟩

end Memory
