import MoonGen.Ipfix.Sets
import MoonGen.Lib.ArrayWriter

universe u

namespace MoonGen

open List

namespace Ipfix

open Memory Bytes ArrayWriter

/-- An information element of a template with its value function, whose calls may change a
state. -/
structure InfoElement (σ : Type u) where
  length : Nat
  value : σ → Nat × σ

/-- The conversion of a number to the 32 bits of a bit operation. Only below 2^51 are these
the low bits of the number on every machine. -/
structure ToBit where
  bits : Nat → BitVec 32
  exact : ∀ v < 2 ^ 51, bits v = .ofNat 32 v

variable {σ : Type u} (bit : ToBit)

/-- `bit.rshift(v, offset * 8)` as an `uint8_t`. Only five bits of the shift are used. -/
def byteAt (v offset : Nat) : UInt8 := .ofNat (bit.bits v >>> (offset * 8 % 32)).toNat

/-- The `while` loop over the bytes of a field, whose offset goes down to zero. -/
def storeField (ie : InfoElement σ) : Nat → ArrayWriter σ → Option (ArrayWriter σ)
  | 0, w => some w
  | offset + 1, w =>
    let (v, env) := ie.value w.env
    (put ⟨w.array, w.index, env⟩ (byteAt bit v offset)).bind (storeField ie offset)

def storeRecord : List (InfoElement σ) → ArrayWriter σ → Option (ArrayWriter σ)
  | [], w => some w
  | ie :: template, w => (storeField bit ie ie.length w).bind (storeRecord template)

def storeRecords (template : List (InfoElement σ)) : Nat → ArrayWriter σ → Option (ArrayWriter σ)
  | 0, w => some w
  | n + 1, w => (storeRecord bit template w).bind (storeRecords template n)

def getRecordLength (template : List (InfoElement σ)) : Nat :=
  template.foldl (fun length ie => length + ie.length) 0

/-- `ipfix:createDataSet` with the state behind the calls, without a value when it writes
outside of the set. -/
def createDataSet (id : Nat) (template : List (InfoElement σ)) (recordLength numOfRecords : Nat) (env : σ) :
    Option (List UInt8 × σ) :=
  let header := createSetHeader id (4 + numOfRecords * recordLength)
  (storeRecords bit template numOfRecords ⟨List.replicate (numOfRecords * recordLength) 0, 0, env⟩).map fun w =>
    (header ++ w.array, w.env)

/-- The values of `k` calls. -/
def fieldCalls (ie : InfoElement σ) : Nat → σ → List Nat × σ
  | 0, s => ([], s)
  | k + 1, s =>
    let later := fieldCalls ie k (ie.value s).2
    ((ie.value s).1 :: later.1, later.2)

/-- The fields of a record, each with the values that its calls return. -/
def recordCalls : List (InfoElement σ) → σ → List (InfoElement σ × List Nat) × σ
  | [], s => ([], s)
  | ie :: template, s =>
    let calls := fieldCalls ie ie.length s
    let later := recordCalls template calls.2
    ((ie, calls.1) :: later.1, later.2)

/-- The fields of all records. -/
def dataCalls (template : List (InfoElement σ)) : Nat → σ → List (InfoElement σ × List Nat) × σ
  | 0, s => ([], s)
  | n + 1, s =>
    let record := recordCalls template s
    let later := dataCalls template n record.2
    (record.1 ++ later.1, later.2)

/-- The bytes of a field from the values of its calls, the first one for the highest byte. -/
def written : List Nat → List UInt8
  | [] => []
  | v :: vs => byteAt bit v vs.length :: written vs

@[simp] theorem length_written (values : List Nat) : (written bit values).length = values.length := by
  induction values with
  | nil => rfl
  | cons v vs ih => rw [written, length_cons, ih, length_cons]

@[simp] theorem length_fieldCalls (ie : InfoElement σ) (k : Nat) (s : σ) : (fieldCalls ie k s).1.length = k := by
  induction k generalizing s with
  | zero => rfl
  | succ k ih => rw [fieldCalls, length_cons, ih]

theorem storeField_writes (ie : InfoElement σ) (k : Nat) (s : σ) :
    Writes (storeField bit ie k) s (written bit (fieldCalls ie k s).1) (fieldCalls ie k s).2 := by
  induction k generalizing s with
  | zero => exact writes_nil s
  | succ k ih =>
    have call := writes_call (fun s => (byteAt bit (ie.value s).1 k, (ie.value s).2)) s
    rw [fieldCalls, written, length_fieldCalls]
    exact call.bind (ih _)

/-- The bytes of the fields, one behind the other. -/
def dataBytes (fields : List (InfoElement σ × List Nat)) : List UInt8 :=
  fields.flatMap fun field => written bit field.2
section
variable (template : List (InfoElement σ))

theorem storeRecord_writes (s : σ) :
    Writes (storeRecord bit template) s (dataBytes bit (recordCalls template s).1) (recordCalls template s).2 := by
  induction template generalizing s with
  | nil => exact writes_nil s
  | cons ie template ih => exact (storeField_writes bit ie ie.length s).bind (ih _)

theorem storeRecords_writes (n : Nat) (s : σ) :
    Writes (storeRecords bit template n) s (dataBytes bit (dataCalls template n s).1) (dataCalls template n s).2 := by
  induction n generalizing s with
  | zero => exact writes_nil s
  | succ n ih =>
    rw [dataCalls, dataBytes, flatMap_append]
    exact (storeRecord_writes bit template s).bind (ih _)

theorem getRecordLength_eq : getRecordLength template = (template.map InfoElement.length).sum := by
  rw [getRecordLength, ← foldl_map, sum_eq_foldl]

theorem length_recordCalls (s : σ) : (dataBytes bit (recordCalls template s).1).length = getRecordLength template := by
  rw [getRecordLength_eq]
  induction template generalizing s with
  | nil => rfl
  | cons ie template ih =>
    rw [recordCalls, dataBytes, flatMap_cons, length_append, length_written, length_fieldCalls, map_cons, sum_cons]
    exact congrArg (ie.length + ·) (ih _)

theorem length_dataCalls (n : Nat) (s : σ) :
    (dataBytes bit (dataCalls template n s).1).length = n * getRecordLength template := by
  induction n generalizing s with
  | zero => exact (Nat.zero_mul _).symm
  | succ n ih =>
    rw [dataCalls, dataBytes, flatMap_append, length_append, Nat.succ_mul, Nat.add_comm]
    exact congrArg₂ (· + ·) (ih _) (length_recordCalls bit template s)
end

theorem createDataSet_eq (id : Nat) (template : List (InfoElement σ)) (n : Nat) (s : σ) :
    createDataSet bit id template (getRecordLength template) n s =
      some (createSetHeader id (4 + n * getRecordLength template) ++ dataBytes bit (dataCalls template n s).1,
        (dataCalls template n s).2) := by
  have filled := (storeRecords_writes bit template n s).fill
  rw [length_dataCalls] at filled
  rw [createDataSet, filled, Option.map_some]

/-- A field that comes out whole: one of several bytes has a value function that returns the
same number again, and from the fifth byte on the bytes of its values repeat. -/
structure InfoElement.Steady (ie : InfoElement σ) : Prop where
  positive : 1 ≤ ie.length
  small : ∀ s, (ie.value s).1 < 2 ^ 51
  same : ie.length = 1 ∨ ∀ s, (ie.value (ie.value s).2).1 = (ie.value s).1
  repeats : ∀ s, ∀ p < ie.length, 4 ≤ p → (ie.value s).1 / 256 ^ p % 256 = (ie.value s).1 / 256 ^ (p % 4) % 256

theorem byteAt_eq {v p : Nat} (small : v < 2 ^ 51)
    (repeats : 4 ≤ p → v / 256 ^ p % 256 = v / 256 ^ (p % 4) % 256) : byteAt bit v p = .ofNat (v / 256 ^ p) := by
  have shift : 2 ^ (p * 8 % 32) = 256 ^ (p % 4) := by
    rw [show p * 8 % 32 = 8 * (p % 4) by omega, Nat.pow_mul]
  -- The word holds the byte, which is one of its four.
  have word : v % 2 ^ 32 / 256 ^ (p % 4) % 256 = v / 256 ^ (p % 4) % 256 := by
    have split : 2 ^ 32 = 256 ^ (p % 4) * (256 * 256 ^ (3 - p % 4)) := by
      rw [← Nat.pow_succ', ← Nat.pow_add, show p % 4 + (3 - p % 4 + 1) = 4 by omega]
      rfl
    rw [split, Nat.mod_mul_right_div_self, Nat.mod_mul_right_mod]
  have byte : v / 256 ^ p % 256 = v / 256 ^ (p % 4) % 256 := by
    by_cases low : p < 4
    · rw [Nat.mod_eq_of_lt low]
    · exact repeats (Nat.not_lt.mp low)
  rw [byteAt, bit.exact v small, BitVec.toNat_ushiftRight, BitVec.toNat_ofNat, Nat.shiftRight_eq_div_pow, shift,
    ← UInt8.toNat_inj, UInt8.toNat_ofNat', UInt8.toNat_ofNat']
  exact word.trans byte.symm

theorem written_replicate {v k : Nat} (small : v < 2 ^ 51)
    (repeats : ∀ p < k, 4 ≤ p → v / 256 ^ p % 256 = v / 256 ^ (p % 4) % 256) :
    written bit (List.replicate k v) = (leBytes k v).reverse := by
  induction k with
  | zero => rfl
  | succ k ih =>
    rw [replicate_succ, written, length_replicate, byteAt_eq bit small (repeats k k.lt_succ_self),
      ih fun p low => repeats p (Nat.lt_succ_of_lt low), leBytes_succ', reverse_append, reverse_singleton,
      singleton_append]

theorem InfoElement.Steady.fieldCalls_eq {ie : InfoElement σ} (steady : ie.Steady) (s : σ) :
    (fieldCalls ie ie.length s).1 = List.replicate ie.length (ie.value s).1 := by
  rcases steady.same with one | same
  · rw [one]
    rfl
  · generalize ie.length = k
    induction k generalizing s with
    | zero => rfl
    | succ k ih => rw [fieldCalls, ih, same, replicate_succ]

theorem InfoElement.Steady.encoded {ie : InfoElement σ} (steady : ie.Steady) (s : σ) :
    ∃ v ∈ (fieldCalls ie ie.length s).1,
      written bit (fieldCalls ie ie.length s).1 = (leBytes ie.length v).reverse := by
  rw [steady.fieldCalls_eq]
  exact ⟨_, mem_replicate.mpr ⟨Nat.one_le_iff_ne_zero.mp steady.positive, rfl⟩,
    written_replicate bit (steady.small s) (steady.repeats s)⟩

variable {template : List (InfoElement σ)}

theorem exists_of_mem_recordCalls {s : σ} {field : InfoElement σ × List Nat}
    (member : field ∈ (recordCalls template s).1) :
    ∃ ie ∈ template, ∃ t, field = (ie, (fieldCalls ie ie.length t).1) := by
  induction template generalizing s with
  | nil => exact absurd member not_mem_nil
  | cons ie template ih =>
    rcases mem_cons.mp member with rfl | later
    · exact ⟨ie, mem_cons_self, s, rfl⟩
    · obtain ⟨other, among, t, eq⟩ := ih later
      exact ⟨other, mem_cons_of_mem ie among, t, eq⟩

theorem exists_of_mem_dataCalls {n : Nat} {s : σ} {field : InfoElement σ × List Nat}
    (member : field ∈ (dataCalls template n s).1) :
    ∃ ie ∈ template, ∃ t, field = (ie, (fieldCalls ie ie.length t).1) := by
  induction n generalizing s with
  | zero => exact absurd member not_mem_nil
  | succ n ih =>
    rcases mem_append.mp member with record | later
    · exact exists_of_mem_recordCalls record
    · exact ih later

/-- The low 32 bits of any number. -/
def ToBit.low : ToBit := ⟨.ofNat 32, fun _ _ => rfl⟩

end Ipfix

end MoonGen
