import MoonGen.Checksum.Words
import MoonGen.Lib.Bytes

namespace MoonGen

open List Option

namespace Ipfix

open Memory Bytes

/-- A `uint16_t` member in network byte order. -/
def member16 (n : Nat) : List UInt8 := leBytes 2 (bswap16 n)

/-- A field of a template. -/
structure Field where
  id : UInt16
  length : UInt16
deriving DecidableEq

def createInformationElement (id length : Nat) : List UInt8 := member16 id ++ member16 length

def createSetHeader (id length : Nat) : List UInt8 := member16 id ++ member16 length

def createTmplRecordHeader (id fieldCount : Nat) : List UInt8 := member16 id ++ member16 fieldCount

def createOptsTmplRecordHeader (id fieldCount scopeFieldCount : Nat) : List UInt8 :=
  member16 id ++ member16 fieldCount ++ member16 scopeFieldCount

/-- The stores into the array `information_elements` from a place of a record on. -/
def setElements (record : List UInt8) (place : Nat) : List Field → Option (List UInt8)
  | [] => some record
  | ie :: template =>
    (write record place (createInformationElement ie.id.toNat ie.length.toNat)).bind fun record =>
      setElements record (place + 4) template

/-- `ipfix:createTmplSet`, without a value when it writes outside of an object. A record
has room for five elements. -/
def createTmplSet (id : Nat) (template : List Field) : Option (List UInt8) :=
  let numOfFields := template.length
  let tmplSetLength := 4 + 4 + 4 * numOfFields
  let header := createSetHeader 2 tmplSetLength
  let recordHeader := createTmplRecordHeader id numOfFields
  (setElements (List.replicate 24 0) 4 template).bind fun record =>
  (write record 0 recordHeader).bind fun record =>
  (write (List.replicate 29 0) 0 header).bind fun set =>
  write set 4 record

/-- `ipfix:createOptsTmplSet`, with one byte of padding behind the record. -/
def createOptsTmplSet (id : Nat) (template : List Field) : Option (List UInt8) :=
  let numOfFields := template.length
  let optsTmplSetLength := 4 + 6 + 2 + 4 * numOfFields
  let header := createSetHeader 3 optsTmplSetLength
  let recordHeader := createOptsTmplRecordHeader id numOfFields 1
  (setElements (List.replicate 26 0) 6 template).bind fun record =>
  (write record 0 recordHeader).bind fun record =>
  (write (List.replicate 31 0) 0 header).bind fun set =>
  (write set 4 record).bind fun set =>
  write set 30 [.ofNat (bswap16 0)]

/-- `ipfix:copyTo`, without a value when it reads outside of the set. -/
def copyTo (dest : Memory) (pos : Nat) (set : List UInt8) : Option (Memory × Nat) :=
  let length := bswap16 (ofLe ((set.drop 2).take 2))
  if length ≤ set.length then some (dest.store pos (set.take length), pos + length) else none

/-- The words of a message, which has no single byte at the end. -/
def netWords : List UInt8 → Option (List Nat)
  | [] => some []
  | [_] => none
  | x :: y :: rest => (netWords rest).map ((256 * x.toNat + y.toNat) :: ·)

/-- A template or an options template. -/
inductive TmplKind
  | tmpl
  | opts
deriving DecidableEq

namespace TmplKind

def create : TmplKind → Nat → List Field → Option (List UInt8)
  | tmpl => createTmplSet
  | opts => createOptsTmplSet

def setId : TmplKind → Nat
  | tmpl => 2
  | opts => 3

/-- The number of scope fields, which only an options template has. -/
def scope : TmplKind → List Nat
  | tmpl => []
  | opts => [1]

def padding : TmplKind → List Nat
  | tmpl => []
  | opts => [0]

/-- The number of fields for which there is room. -/
def room : TmplKind → Nat
  | tmpl => 5
  | opts => 4

end TmplKind

theorem netWords_member16 {n : Nat} (word : n < 2 ^ 16) (rest : List UInt8) :
    netWords (member16 n ++ rest) = (netWords rest).map (n :: ·) := by
  have first : bswap16 n % 2 ^ 8 = n / 2 ^ 8 := by
    rw [bswap16_eq word, Nat.add_mul_mod_self_right, Nat.mod_eq_of_lt (by omega)]
  have second : bswap16 n / 256 % 2 ^ 8 = n % 2 ^ 8 := by
    show bswap16 n / 2 ^ 8 % 2 ^ 8 = n % 2 ^ 8
    rw [bswap16_eq word, Nat.add_mul_div_right _ _ (by decide), Nat.div_eq_of_lt (by omega), Nat.zero_add, Nat.mod_mod]
  rw [member16, leBytes, leBytes, leBytes, cons_append, cons_append, netWords,
    UInt8.toNat_ofNat', UInt8.toNat_ofNat', first, second, nil_append]
  exact congrArg (fun n => (netWords rest).map (n :: ·)) (Nat.div_add_mod n 256)

theorem bswap16_member16 {n : Nat} (word : n < 2 ^ 16) : bswap16 (ofLe (member16 n)) = n := by
  have swapped : bswap16 n < 256 ^ 2 := bswap16_lt word
  rw [member16, ofLe_leBytes, Nat.mod_eq_of_lt swapped, bswap16_bswap16 word]

@[simp] theorem length_member16 (n : Nat) : (member16 n).length = 2 := length_leBytes 2 _

/-- The bytes of the fields of a template. -/
def elements (template : List Field) : List UInt8 :=
  template.flatMap fun ie => createInformationElement ie.id.toNat ie.length.toNat

theorem elements_cons (ie : Field) (template : List Field) :
    elements (ie :: template) = createInformationElement ie.id.toNat ie.length.toNat ++ elements template := rfl

@[simp] theorem length_elements (template : List Field) : (elements template).length = 4 * template.length := by
  induction template with
  | nil => rfl
  | cons ie template ih =>
    rw [elements_cons, length_append, ih, createInformationElement, length_append,
      length_member16, length_member16, length_cons]
    omega

theorem netWords_elements (template : List Field) (rest : List UInt8) : netWords (elements template ++ rest) =
    (netWords rest).map ((template.flatMap fun ie => [ie.id.toNat, ie.length.toNat]) ++ ·) := by
  induction template with
  | nil => exact (congrFun Option.map_id (netWords rest)).symm
  | cons ie template ih =>
    rw [elements_cons, createInformationElement, append_assoc, append_assoc,
      netWords_member16 ie.id.toNat_lt, netWords_member16 ie.length.toNat_lt, ih, Option.map_map, Option.map_map]
    rfl

/-- The stores of the elements into a record that is zero behind its header. -/
theorem setElements_eq (front : List UInt8) (template : List Field) (rest : Nat) :
    setElements (front ++ List.replicate (4 * template.length + rest) 0) front.length template =
      some (front ++ elements template ++ List.replicate rest 0) := by
  induction template generalizing front with
  | nil => simp [setElements, elements]
  | cons ie template ih =>
    have size : (List.replicate 4 (0 : UInt8)).length =
        (createInformationElement ie.id.toNat ie.length.toNat).length := rfl
    have split : List.replicate (4 * (template.length + 1) + rest) (0 : UInt8) =
        List.replicate 4 0 ++ List.replicate (4 * template.length + rest) 0 := by
      rw [← replicate_add]
      congr 1
      omega
    have place : front.length + 4 = (front ++ createInformationElement ie.id.toNat ie.length.toNat).length := by
      rw [length_append]
      rfl
    rw [setElements, length_cons, split, ← append_assoc, write_append size, bind_some, place, ih,
      append_assoc front, elements_cons]

theorem setElements_of_beyond {record : List UInt8} {place : Nat} {template : List Field}
    (beyond : record.length < place + 4 * template.length) (inside : place ≤ record.length) :
    setElements record place template = none := by
  induction template generalizing record place with
  | nil => exact absurd beyond (by simpa using inside)
  | cons ie template ih =>
    rw [length_cons] at beyond
    rw [setElements]
    by_cases fits : place + 4 ≤ record.length
    · obtain ⟨record', stored, length⟩ : ∃ record', write record place
          (createInformationElement ie.id.toNat ie.length.toNat) = some record' ∧ record'.length = record.length := by
        refine ⟨_, if_pos fits, ?_⟩
        simp only [length_append, length_take, length_drop]
        have size : (createInformationElement ie.id.toNat ie.length.toNat).length = 4 := rfl
        omega
      rw [stored, bind_some, ih (by omega) (by omega)]
    · rw [write_of_beyond (by exact Nat.not_le.mp fits), bind_none]

@[simp] theorem length_createSetHeader (id length : Nat) : (createSetHeader id length).length = 4 := rfl

theorem record_eq (header : List UInt8) (template : List Field) {rest : Nat} (fits : 4 * template.length + rest = 20) :
    ((setElements (List.replicate (header.length + 20) 0) header.length template).bind fun record =>
      write record 0 header) = some (header ++ elements template ++ List.replicate rest 0) := by
  have filled := setElements_eq (List.replicate header.length 0) template rest
  rw [length_replicate, fits, ← replicate_add] at filled
  rw [filled, bind_some, append_assoc, append_assoc]
  exact write_append length_replicate [] _

theorem set_eq {header record : List UInt8} {size : Nat} (four : header.length = 4) (length : record.length = size) :
    ((write (List.replicate (4 + size + 1) 0) 0 header).bind fun set => write set 4 record) =
      some (header ++ record ++ [0]) := by
  have split : List.replicate (4 + size + 1) (0 : UInt8) =
      [] ++ List.replicate 4 0 ++ List.replicate (size + 1) 0 := by
    rw [nil_append, ← replicate_add, Nat.add_assoc]
  have first : write (List.replicate (4 + size + 1) 0) 0 header = some (header ++ List.replicate (size + 1) 0) := by
    rw [split]
    exact write_append (length_replicate.trans four.symm) [] _
  have second : write (header ++ List.replicate (size + 1) 0) 4 record = some (header ++ record ++ [0]) := by
    rw [replicate_succ', ← append_assoc, ← four]
    exact write_append (length_replicate.trans length.symm) header [0]
  rw [first, bind_some, second]

/-- A template that fits is stored behind the headers, before zeros. -/
theorem createTmplSet_eq (id : Nat) (template : List Field) {rest : Nat} (fits : 4 * template.length + rest = 20) :
    createTmplSet id template = some (createSetHeader 2 (8 + 4 * template.length) ++
      (createTmplRecordHeader id template.length ++ elements template ++ List.replicate rest 0) ++ [0]) := by
  have record := record_eq (createTmplRecordHeader id template.length) template fits
  have size : (createTmplRecordHeader id template.length ++ elements template ++
      List.replicate rest 0).length = 24 := by
    simp [createTmplRecordHeader]
    omega
  have set := set_eq (length_createSetHeader 2 (8 + 4 * template.length)) size
  rw [createTmplSet, ← Option.bind_assoc]
  exact (congrArg (Option.bind · _) record).trans set

theorem createOptsTmplSet_eq (id : Nat) (template : List Field) {rest : Nat} (fits : 4 * template.length + rest = 20) :
    createOptsTmplSet id template = some (createSetHeader 3 (12 + 4 * template.length) ++
      (createOptsTmplRecordHeader id template.length 1 ++ elements template ++ List.replicate rest 0) ++ [0]) := by
  have record := record_eq (createOptsTmplRecordHeader id template.length 1) template fits
  have size : (createOptsTmplRecordHeader id template.length 1 ++ elements template ++
      List.replicate rest 0).length = 26 := by
    simp [createOptsTmplRecordHeader]
    omega
  have set := set_eq (length_createSetHeader 3 (12 + 4 * template.length)) size
  have place : (createSetHeader 3 (12 + 4 * template.length) ++ (createOptsTmplRecordHeader id template.length 1 ++
      elements template ++ List.replicate rest 0)).length = 30 := by
    rw [length_append, size, length_createSetHeader]
  have padded := @write_append [0] [0] rfl (createSetHeader 3 (12 + 4 * template.length) ++
    (createOptsTmplRecordHeader id template.length 1 ++ elements template ++ List.replicate rest 0)) []
  rw [place, append_nil] at padded
  rw [createOptsTmplSet, ← Option.bind_assoc]
  refine (congrArg (Option.bind · _) record).trans ?_
  rw [bind_some, ← Option.bind_assoc]
  exact (congrArg (Option.bind · _) set).trans padded

namespace TmplKind

/-- The number of bytes that the set header tells. -/
def length : TmplKind → Nat → Nat
  | tmpl, n => 8 + 4 * n
  | opts, n => 12 + 4 * n

/-- The headers of a set and of its record. -/
def headers : TmplKind → Nat → Nat → List UInt8
  | tmpl, id, n => createSetHeader 2 (8 + 4 * n) ++ createTmplRecordHeader id n
  | opts, id, n => createSetHeader 3 (12 + 4 * n) ++ createOptsTmplRecordHeader id n 1

theorem create_eq (kind : TmplKind) (id : Nat) (template : List Field) {rest : Nat}
    (fits : 4 * template.length + rest = 20) : kind.create id template =
      some (kind.headers id template.length ++ elements template ++ List.replicate (rest + 1) 0) := by
  cases kind with
  | tmpl => simp [create, headers, createTmplSet_eq id template fits, replicate_succ']
  | opts => simp [create, headers, createOptsTmplSet_eq id template fits, replicate_succ']

variable {template : List Field}

theorem create_of_beyond (kind : TmplKind) (id : Nat) (beyond : 5 < template.length) :
    kind.create id template = none := by
  cases kind with
  | tmpl =>
    have outside : setElements (List.replicate 24 0) 4 template = none :=
      setElements_of_beyond (by rw [length_replicate]; omega) (by decide)
    rw [create, createTmplSet, outside, bind_none]
  | opts =>
    have outside : setElements (List.replicate 26 0) 6 template = none :=
      setElements_of_beyond (by rw [length_replicate]; omega) (by decide)
    rw [create, createOptsTmplSet, outside, bind_none]

theorem netWords_headers (kind : TmplKind) {id n : Nat} (word : id < 2 ^ 16) (small : n ≤ 5) (rest : List UInt8) :
    netWords (kind.headers id n ++ rest) =
      (netWords rest).map fun ws => kind.setId :: kind.length n :: id :: n :: (kind.scope ++ ws) := by
  cases kind with
  | tmpl =>
    simp only [headers, createSetHeader, createTmplRecordHeader, append_assoc]
    rw [netWords_member16 (by decide), netWords_member16 (by omega), netWords_member16 word,
      netWords_member16 (by omega), Option.map_map, Option.map_map, Option.map_map]
    rfl
  | opts =>
    simp only [headers, createSetHeader, createOptsTmplRecordHeader, append_assoc]
    rw [netWords_member16 (by decide), netWords_member16 (by omega), netWords_member16 word,
      netWords_member16 (by omega), netWords_member16 (by decide), Option.map_map, Option.map_map, Option.map_map,
      Option.map_map]
    rfl

/-- `copyTo` copies as many bytes as the set header tells. -/
theorem copyTo_eq (kind : TmplKind) (dest : Memory) (pos id : Nat) {n : Nat} (small : n ≤ 5) (rest : List UInt8) :
    copyTo dest pos (kind.headers id n ++ rest) =
      if kind.length n ≤ (kind.headers id n ++ rest).length then
        some (dest.store pos ((kind.headers id n ++ rest).take (kind.length n)), pos + kind.length n)
      else none := by
  have field : ((kind.headers id n ++ rest).drop 2).take 2 = member16 (kind.length n) := by cases kind <;> rfl
  have word : kind.length n < 2 ^ 16 := by cases kind <;> simp only [length] <;> omega
  rw [copyTo, field, bswap16_member16 word]

/-- The bytes of a template on the wire. -/
def message (kind : TmplKind) (id : Nat) (template : List Field) : List UInt8 :=
  kind.headers id template.length ++ (elements template ++ List.replicate (2 * kind.padding.length) 0)

@[simp] theorem length_message (kind : TmplKind) (id : Nat) (template : List Field) :
    (kind.message id template).length = kind.length template.length := by
  cases kind with
  | tmpl => simp [message, headers, length, padding, createTmplRecordHeader]; omega
  | opts => simp [message, headers, length, padding, createOptsTmplRecordHeader]; omega

theorem netWords_message (kind : TmplKind) {id : Nat} (word : id < 2 ^ 16)
    (small : template.length ≤ 5) : netWords (kind.message id template) =
      some (kind.setId :: kind.length template.length :: id :: template.length ::
        (kind.scope ++ ((template.flatMap fun ie => [ie.id.toNat, ie.length.toNat]) ++ kind.padding))) := by
  have zeros : netWords (List.replicate (2 * kind.padding.length) 0) = some kind.padding := by cases kind <;> rfl
  rw [message, kind.netWords_headers word small, netWords_elements, zeros]
  rfl

/-- The padding is a part of the set exactly if there is room for all fields. -/
theorem padding_le_iff (kind : TmplKind) {n rest : Nat} (fits : 4 * n + rest = 20) :
    2 * kind.padding.length ≤ rest + 1 ↔ n ≤ kind.room := by
  cases kind with
  | tmpl => exact iff_of_true (Nat.zero_le _) (show n ≤ 5 by omega)
  | opts => exact (show 2 ≤ rest + 1 ↔ n ≤ 4 by omega)

theorem length_le_iff (kind : TmplKind) (id : Nat) {rest : Nat} (fits : 4 * template.length + rest = 20) :
    kind.length template.length ≤
      (kind.headers id template.length ++ elements template ++ List.replicate (rest + 1) 0).length ↔
    template.length ≤ kind.room := by
  rw [← kind.padding_le_iff fits, ← kind.length_message id template, message]
  simp only [length_append, length_replicate]
  omega

/-- What `copyTo` copies of a set with room for all fields. -/
theorem take_headers (kind : TmplKind) (id : Nat) {rest : Nat}
    (fits : 4 * template.length + rest = 20) (room : template.length ≤ kind.room) :
    (kind.headers id template.length ++ elements template ++ List.replicate (rest + 1) 0).take
      (kind.length template.length) = kind.message id template := by
  obtain ⟨extra, more⟩ := Nat.exists_eq_add_of_le ((kind.padding_le_iff fits).mpr room)
  have split : kind.headers id template.length ++ elements template ++ List.replicate (rest + 1) 0 =
      kind.message id template ++ List.replicate extra 0 := by
    rw [more, replicate_add, message, append_assoc, append_assoc, append_assoc]
  rw [split, ← kind.length_message id template, take_left]

end TmplKind

open TmplKind

/-- A set is copied to the message as the words of a template exactly if there is room for
its fields. -/
theorem ipfix_template_iff (kind : TmplKind) (id : UInt16) (template : List Field) (dest : Memory) (pos : Nat) :
    (∃ set dest' k, kind.create id.toNat template = some set ∧ copyTo dest pos set = some (dest', pos + k) ∧
      netWords (dest'.slice pos k) = some (kind.setId :: k :: id.toNat :: template.length ::
        (kind.scope ++ ((template.flatMap fun ie => [ie.id.toNat, ie.length.toNat]) ++ kind.padding))) ∧
      ∀ b, b < pos ∨ pos + k ≤ b → dest' b = dest b) ↔ template.length ≤ kind.room := by
  by_cases small : template.length ≤ 5
  · obtain ⟨rest, fits⟩ : ∃ rest, 4 * template.length + rest = 20 := ⟨20 - 4 * template.length, by omega⟩
    have created := kind.create_eq id.toNat template fits
    have copied := kind.copyTo_eq dest pos id.toNat small (elements template ++ List.replicate (rest + 1) 0)
    rw [← append_assoc] at copied
    constructor
    · rintro ⟨set, dest', k, made, way, -⟩
      obtain rfl := Option.some.inj (created.symm.trans made)
      by_contra full
      rw [copied, if_neg (mt (kind.length_le_iff id.toNat fits).mp full)] at way
      exact some_ne_none _ way.symm
    · intro room
      rw [if_pos ((kind.length_le_iff id.toNat fits).mpr room), kind.take_headers id.toNat fits room] at copied
      refine ⟨_, _, _, created, copied, ?_, ?_⟩
      · have stored := store_holds dest pos (kind.message id.toNat template)
        rw [Holds, length_message] at stored
        rw [stored, kind.netWords_message id.toNat_lt small]
      · intro b outside
        rw [← kind.length_message id.toNat template] at outside
        exact store_of_outside dest outside
  · have refused := kind.create_of_beyond id.toNat (Nat.not_le.mp small)
    have five : kind.room ≤ 5 := by cases kind <;> decide
    constructor
    · rintro ⟨set, dest', k, made, -⟩
      exact absurd (refused.symm.trans made) (some_ne_none set).symm
    · intro room
      exact absurd (room.trans five) small

/-- A template of six fields is written behind the end of its record, and an options
template of five fields is read behind the end of its set. -/
theorem ipfix_template_beyond :
    createTmplSet 256 (List.replicate 6 ⟨8, 4⟩) = none ∧
    (createOptsTmplSet 256 (List.replicate 5 ⟨8, 4⟩)).map (copyTo (fun _ => 0) 0) = some none :=
  ⟨rfl, rfl⟩

end Ipfix

end MoonGen
