import Mathlib.Algebra.Group.Int.Defs
import Mathlib.Algebra.GroupWithZero.Nat
import Mathlib.Data.Int.Init
import Mathlib.Data.List.Basic
import Mathlib.Algebra.Order.Group.Nat

namespace MoonGen

open List

/-- A packet buffer: its address and the total length of its segments. -/
structure Mbuf where
  addr : Nat
  pktLen : UInt32
  deriving DecidableEq, Repr

/-- The exact number of bytes in a batch, which no machine word bounds. -/
def bytes (obj : List Mbuf) : Nat := (obj.map fun m => m.pktLen.toNat).sum

/-- `for (i = 0; i < n; i++) total_size += obj[i]->pkt_len` over `uint32_t`. -/
def totalSize (obj : List Mbuf) : UInt32 := obj.foldl (fun total m => total + m.pktLen) 0

/-- The `int` that a `uint32_t` value converts to. -/
def int32 (n : Nat) : Int := (UInt32.ofNat n).toInt32.toInt

@[simp] theorem bytes_nil : bytes [] = 0 := rfl

@[simp] theorem bytes_cons (m : Mbuf) (obj : List Mbuf) : bytes (m :: obj) = m.pktLen.toNat + bytes obj := by
  simp [bytes]

@[simp] theorem bytes_append (left right : List Mbuf) : bytes (left ++ right) = bytes left + bytes right := by
  simp [bytes]

theorem bytes_take_add_drop (obj : List Mbuf) (k : Nat) : bytes (obj.take k) + bytes (obj.drop k) = bytes obj := by
  rw [← bytes_append, take_append_drop]

theorem bytes_take_le (obj : List Mbuf) (k : Nat) : bytes (obj.take k) ≤ bytes obj := by
  have split := bytes_take_add_drop obj k
  omega

theorem pktLen_le_bytes {m : Mbuf} {obj : List Mbuf} (member : m ∈ obj) : m.pktLen.toNat ≤ bytes obj := by
  obtain ⟨before, after, rfl⟩ := append_of_mem member
  simp only [bytes_append, bytes_cons]
  omega

theorem length_le_bytes {obj : List Mbuf} {least : Nat} (long : ∀ m ∈ obj, least ≤ m.pktLen.toNat) :
    least * obj.length ≤ bytes obj := by
  induction obj with
  | nil => simp
  | cons m obj ih =>
    have first := long m (mem_cons_self ..)
    have rest := ih fun x member => long x (mem_cons_of_mem _ member)
    simp only [length_cons, bytes_cons, Nat.mul_add, Nat.mul_one]
    omega

theorem foldl_pktLen_toNat (obj : List Mbuf) (start : UInt32) :
    (obj.foldl (fun total m => total + m.pktLen) start).toNat = (start.toNat + bytes obj) % 2 ^ 32 := by
  induction obj generalizing start with
  | nil => simp
  | cons m obj ih =>
    simp only [foldl_cons, ih, bytes_cons, UInt32.toNat_add]
    omega

theorem totalSize_toNat (obj : List Mbuf) : (totalSize obj).toNat = bytes obj % 2 ^ 32 := by
  simpa [totalSize] using foldl_pktLen_toNat obj 0

theorem foldl_sub_pktLen_toNat (obj : List Mbuf) (start : UInt32) :
    (obj.foldl (fun used m => used - m.pktLen) start).toNat =
      ((start.toNat - bytes obj : Int) % 2 ^ 32).toNat := by
  induction obj generalizing start with
  | nil =>
    have bound := start.toNat_lt
    simp only [foldl_nil, bytes_nil]
    omega
  | cons m obj ih =>
    have bound := m.pktLen.toNat_lt
    simp only [foldl_cons, ih, bytes_cons, UInt32.toNat_sub]
    omega

theorem toInt_toInt32 (n : UInt32) : n.toInt32.toInt = (n.toNat : Int).bmod (2 ^ 32) := by
  rw [← Int32.toInt_toBitVec, UInt32.toBitVec_toInt32, BitVec.toInt_eq_toNat_bmod, UInt32.toNat_toBitVec]

theorem lt_of_bmod_nonneg {x : Int} (word : x < 2 ^ 32) (nonneg : 0 ≤ x.bmod (2 ^ 32)) : x < 2 ^ 31 := by
  simp only [Int.bmod] at nonneg
  split at nonneg <;> omega

theorem int32_toNat (n : UInt32) : int32 n.toNat = n.toInt32.toInt := by
  rw [int32, UInt32.ofNat_toNat]

theorem int32_of_lt {n : Nat} (small : n < 2 ^ 31) : int32 n = n := by
  have word : (UInt32.ofNat n).toNat = n := by simp; omega
  rw [int32, toInt_toInt32, word]
  exact Int.bmod_eq_of_le (by omega) (by omega)

end MoonGen
