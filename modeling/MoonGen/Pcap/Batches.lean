import MoonGen.Pcap.Records

namespace MoonGen

open List

/-- One call after another, from call `i` on, until one returns nothing. The
result is `none` when the fuel does not last until then. -/
def drain (mem : Memory) (size : Nat) (mempoolBufSize : UInt32) (calls : Nat → ReadCall) :
    (fuel i offset : Nat) → Option (List PcapBuf)
  | 0, _, _ => none
  | fuel + 1, i, offset =>
    let result := (calls i).run mem size mempoolBufSize offset
    if result.bufs.isEmpty then some []
    else (drain mem size mempoolBufSize calls fuel (i + 1) result.offset).map (result.bufs ++ ·)

/-- The last record has so little data that less than 32 bytes of the file are left
in front of it. -/
def shortLast (records : List PcapRecord) : Bool := records.getLast?.any fun r => r.data.length < 16

/-- How many packets come back from calls that ask for `sizes` of them, when a
call in front of a hidden last record returns nothing. -/
def drainCount (sizes : Nat → Nat) (hidden : Bool) : (fuel i left : Nat) → Nat
  | 0, _, _ => 0
  | fuel + 1, i, left =>
    if left = 0 ∨ (left = 1 ∧ hidden) ∨ sizes i = 0 then 0
    else min (sizes i) left + drainCount sizes hidden fuel (i + 1) (left - sizes i)

/-- Some calls in a row, from call `i` on, ask for `total` packets together, and
each of them for at least one. -/
inductive Asked (sizes : Nat → Nat) : (i total : Nat) → Prop
  | none {i} : Asked sizes i 0
  | call {i total} : 0 < sizes i → Asked sizes (i + 1) total → Asked sizes i (sizes i + total)

section
variable {sizes : Nat → Nat} {hidden : Bool} {fuel i left : Nat}

theorem asked_iff {total : Nat} (positive : 0 < total) :
    Asked sizes i total ↔ 0 < sizes i ∧ ∃ rest, Asked sizes (i + 1) rest ∧ total = sizes i + rest := by
  constructor
  · intro asked
    cases asked with
    | none => omega
    | call asks rest => exact ⟨asks, _, rest, rfl⟩
  · rintro ⟨asks, rest, asked, rfl⟩
    exact .call asks asked

theorem not_asked {total : Nat} (asks : sizes i = 0) (positive : 0 < total) : ¬Asked sizes i total := by
  intro asked
  have := ((asked_iff positive).mp asked).1
  omega

/-- Calls for one packet each come by every total. -/
theorem asked_one (i total : Nat) : Asked (fun _ => 1) i total := by
  induction total generalizing i with
  | zero => exact .none
  | succ total ih => exact Nat.add_comm total 1 ▸ .call Nat.one_pos (ih (i + 1))

theorem drainCount_stop (stop : left = 0 ∨ (left = 1 ∧ hidden) ∨ sizes i = 0) :
    drainCount sizes hidden (fuel + 1) i left = 0 :=
  if_pos stop

theorem drainCount_go (go : ¬(left = 0 ∨ (left = 1 ∧ hidden) ∨ sizes i = 0)) :
    drainCount sizes hidden (fuel + 1) i left =
      min (sizes i) left + drainCount sizes hidden fuel (i + 1) (left - sizes i) :=
  if_neg go

theorem drainCount_le : drainCount sizes hidden fuel i left ≤ left := by
  induction fuel generalizing i left with
  | zero => exact Nat.zero_le _
  | succ fuel ih =>
    have rest := @ih (i + 1) (left - sizes i)
    rw [drainCount]
    split <;> omega

@[simp] theorem drainCount_zero : drainCount sizes hidden fuel i 0 = 0 :=
  Nat.le_zero.mp drainCount_le

/-- With no hidden record all come back when enough of them are asked for before
a call asks for nothing. -/
theorem drainCount_eq_left_iff (enough : left < fuel) :
    drainCount sizes false fuel i left = left ↔ ∃ total, left ≤ total ∧ Asked sizes i total := by
  induction fuel generalizing i left with
  | zero => omega
  | succ fuel ih =>
    rcases Nat.eq_zero_or_pos left with rfl | more
    · simpa using ⟨0, .none⟩
    have rest := @drainCount_le sizes false fuel (i + 1) (left - sizes i)
    by_cases asks : sizes i = 0
    · have never : ¬∃ total, left ≤ total ∧ Asked sizes i total :=
        fun ⟨total, upto, asked⟩ => not_asked asks (by omega) asked
      rw [drainCount_stop (.inr (.inr asks)), iff_false_right never]
      omega
    · have here : min (sizes i) left + drainCount sizes false fuel (i + 1) (left - sizes i) = left ↔
          drainCount sizes false fuel (i + 1) (left - sizes i) = left - sizes i := by
        omega
      rw [drainCount_go (by simp [asks]; omega), here, ih (by omega)]
      constructor
      · rintro ⟨total, upto, asked⟩
        exact ⟨sizes i + total, by omega, .call (by omega) asked⟩
      · rintro ⟨total, upto, asked⟩
        obtain ⟨-, rest, later, rfl⟩ := (asked_iff (by omega)).mp asked
        exact ⟨rest, by omega, later⟩

/-- A hidden record stays behind exactly when a call comes to stand in front of it. -/
theorem drainCount_eq_pred_iff (enough : left < fuel) (positive : 0 < left) :
    drainCount sizes true fuel i left = left - 1 ↔ Asked sizes i (left - 1) := by
  induction fuel generalizing i left with
  | zero => omega
  | succ fuel ih =>
    rcases Nat.lt_or_eq_of_le positive with more | one
    · by_cases asks : sizes i = 0
      · rw [drainCount_stop (.inr (.inr asks)), iff_false_right (not_asked asks (by omega))]
        omega
      · rw [drainCount_go (by simp [asks]; omega), asked_iff (by omega)]
        rcases Nat.lt_or_ge (sizes i) left with fewer | all
        · have here : min (sizes i) left + drainCount sizes true fuel (i + 1) (left - sizes i) = left - 1 ↔
              drainCount sizes true fuel (i + 1) (left - sizes i) = left - sizes i - 1 := by
            omega
          rw [here, ih (by omega) (by omega)]
          constructor
          · exact fun asked => ⟨by omega, _, asked, by omega⟩
          · rintro ⟨-, rest, asked, total⟩
            have same : rest = left - sizes i - 1 := by omega
            exact same ▸ asked
        · rw [Nat.sub_eq_zero_of_le all, drainCount_zero]
          constructor
          · omega
          · rintro ⟨-, rest, -, total⟩
            omega
    · subst one
      rw [drainCount_stop (.inr (.inl ⟨rfl, rfl⟩))]
      exact iff_of_true rfl .none

end

section
variable {mem : Memory} {size offset : Nat} {mempoolBufSize : UInt32} {records : List PcapRecord}

theorem recordBytes_few_iff :
    (recordBytes records).length < 32 ↔ records.length = 0 ∨ (records.length = 1 ∧ shortLast records) := by
  rw [length_recordBytes]
  match records with
  | [] => simp
  | [r] =>
    simp [shortLast]
    omega
  | r :: s :: rest =>
    simp
    omega

/-- As long as records are left, the last one stays the same. -/
theorem shortLast_drop {n : Nat} (fewer : n < records.length) : shortLast (records.drop n) = shortLast records := by
  rw [shortLast, getLast?_drop, if_neg (by omega), shortLast]

theorem drainCount_drop (sizes : Nat → Nat) (fuel i n : Nat) :
    drainCount sizes (shortLast (records.drop n)) fuel i (records.drop n).length =
      drainCount sizes (shortLast records) fuel i (records.length - n) := by
  rw [length_drop]
  rcases Nat.lt_or_ge n records.length with fewer | all
  · rw [shortLast_drop fewer]
  · rw [Nat.sub_eq_zero_of_le all, drainCount_zero, drainCount_zero]

/-- The calls return the first packets of the file, one call for each at most. -/
theorem Ahead.drain (ahead : Ahead mem size offset records) (offT : size < 2 ^ 63) {calls : Nat → ReadCall}
    (allocates : ∀ i, (calls i).Allocates) {fuel : Nat} (enough : records.length < fuel) (i : Nat) :
    MoonGen.drain mem size mempoolBufSize calls fuel i offset =
      some (((recordBufs mem mempoolBufSize offset records).map PcapBuf.unchained).take
        (drainCount (fun i => (calls i).requested) (shortLast records) fuel i records.length)) := by
  induction fuel generalizing i offset records with
  | zero => omega
  | succ fuel ih =>
    rw [MoonGen.drain]
    rcases Nat.lt_or_ge (recordBytes records).length 32 with few | many
    · have stop := recordBytes_few_iff.mp few
      rw [(ahead.run_of_few few (calls i)).1, drainCount_stop (stop.imp_right .inl)]
      rfl
    · obtain ⟨bufs, next⟩ := @Ahead.run _ _ mempoolBufSize _ _ ahead offT many _ (allocates i)
      have going : ¬(records.length = 0 ∨ (records.length = 1 ∧ shortLast records)) :=
        recordBytes_few_iff.not.mp (Nat.not_lt.mpr many)
      rw [bufs, next]
      by_cases unasked : (calls i).requested = 0
      · rw [drainCount_stop (.inr (.inr unasked)), unasked]
        rfl
      · have first : ¬((recordBufs mem mempoolBufSize offset (records.take (calls i).requested)).map
            PcapBuf.unchained).isEmpty = true := by
          rw [isEmpty_iff_length_eq_zero, length_map, length_recordBufs, length_take]
          omega
        have shorter : (records.drop (calls i).requested).length < fuel := by
          rw [length_drop]
          omega
        have length : ((recordBufs mem mempoolBufSize offset records).map PcapBuf.unchained).length =
            records.length := by
          rw [length_map, length_recordBufs]
        rw [if_neg first, ih (ahead.drop _) shorter, drainCount_drop, drainCount_go (by tauto), Option.map_some,
          ← take_recordBufs, ← drop_recordBufs, map_take, map_drop, ← take_add, Option.some_inj,
          take_eq_take_iff, length]
        omega

end

/-- The calls of a batch reader meet the end of the file where single reads do:
none of them asks for nothing before all records are asked for, and when the last
record is too short for a reader that stands in front of it, one of them does. -/
def MeetsEnd (sizes : Nat → Nat) (records : List PcapRecord) : Prop :=
  if shortLast records then Asked sizes 0 (records.length - 1)
  else ∃ total, records.length ≤ total ∧ Asked sizes 0 total

theorem drainCount_eq_one_iff (sizes : Nat → Nat) (records : List PcapRecord) :
    drainCount (fun _ => 1) (shortLast records) (records.length + 1) 0 records.length =
        drainCount sizes (shortLast records) (records.length + 1) 0 records.length ↔
      MeetsEnd sizes records := by
  unfold MeetsEnd
  cases short : shortLast records with
  | false =>
    have one := (@drainCount_eq_left_iff (fun _ => 1) _ 0 _ (Nat.lt_succ_self records.length)).mpr
      ⟨_, Nat.le_refl _, asked_one 0 _⟩
    rw [one, eq_comm, drainCount_eq_left_iff (Nat.lt_succ_self _)]
    rfl
  | true =>
    have positive : 0 < records.length := by
      rw [length_pos_iff]
      rintro rfl
      simp [shortLast] at short
    have one := (@drainCount_eq_pred_iff (fun _ => 1) _ 0 _ (Nat.lt_succ_self records.length) positive).mpr
      (asked_one 0 _)
    rw [one, eq_comm, drainCount_eq_pred_iff (Nat.lt_succ_self _) positive]
    rfl

/-- Single reads until one returns nil, and batches of any sizes until one is
empty, both come to an end, and give the same packets exactly when the batches
meet the end of the file. -/
theorem readers_agree_iff {hdr : List UInt8} {records : List PcapRecord} (header : hdr.length = pcapHdrSize)
    (complete : ∀ r ∈ records, r.data.length < 2 ^ 32) (offT : (hdr ++ recordBytes records).length < 2 ^ 63)
    (beyond : Memory) (mempoolBufSize : UInt32) (sizes : Nat → Nat) :
    let file := hdr ++ recordBytes records
    let read := fun calls =>
      drain (.ofFile file beyond) file.length mempoolBufSize calls (records.length + 1) 0 pcapHdrSize
    ∃ singles batches, read (fun _ => .readSingle true) = some singles ∧
      read (fun i => .read (sizes i) fun _ => true) = some batches ∧
      (singles = batches ↔ MeetsEnd sizes records) := by
  intro file read
  have ahead : Ahead (.ofFile file beyond) file.length pcapHdrSize records :=
    ⟨complete, header ▸ Memory.ofFile_holds hdr _ beyond, by rw [length_append, header]⟩
  have each : ∀ calls : Nat → ReadCall, (∀ i, (calls i).Allocates) → read calls =
      some (((recordBufs (.ofFile file beyond) mempoolBufSize pcapHdrSize records).map PcapBuf.unchained).take
        (drainCount (fun i => (calls i).requested) (shortLast records) (records.length + 1) 0 records.length)) :=
    fun calls allocates => ahead.drain offT allocates (Nat.lt_succ_self _) 0
  refine ⟨_, _, each _ fun _ => rfl, each _ fun _ _ _ => rfl, ?_⟩
  have singles := @drainCount_le (fun _ => 1) (shortLast records) (records.length + 1) 0 records.length
  have batches := @drainCount_le sizes (shortLast records) (records.length + 1) 0 records.length
  rw [take_eq_take_iff, length_map, length_recordBufs, ← drainCount_eq_one_iff]
  exact (Nat.min_eq_left singles).congr (Nat.min_eq_left batches)

/-- A packet of 16 bytes and one of 4. -/
def shortCapture : List PcapRecord := [⟨1, 0, List.replicate 16 7, 16⟩, ⟨2, 0, List.replicate 4 9, 4⟩]

theorem readers_agree_one : ∃ packets,
    drain (.ofFile (pcapHdr ++ recordBytes shortCapture) fun _ => 0) 76 2048 (fun _ => .readSingle true) 3 0 24 =
        some packets ∧
      drain (.ofFile (pcapHdr ++ recordBytes shortCapture) fun _ => 0) 76 2048 (fun _ => .read 1 fun _ => true) 3 0 24 =
        some packets := by
  obtain ⟨singles, batches, first, second, agree⟩ := @readers_agree_iff pcapHdr shortCapture rfl (by decide)
    (by decide) (fun _ => 0) 2048 fun _ => 1
  have meets : MeetsEnd (fun _ => 1) shortCapture := asked_one 0 1
  exact ⟨singles, first, agree.mpr meets ▸ second⟩

/-- A batch of two finds the last packet, which single reads miss. -/
theorem readers_disagree : ∃ singles batches,
    drain (.ofFile (pcapHdr ++ recordBytes shortCapture) fun _ => 0) 76 2048 (fun _ => .readSingle true) 3 0 24 =
        some singles ∧
      drain (.ofFile (pcapHdr ++ recordBytes shortCapture) fun _ => 0) 76 2048 (fun _ => .read 2 fun _ => true) 3 0 24 =
        some batches ∧ singles.length = 1 ∧ batches.length = 2 := by
  have one : (drain (.ofFile (pcapHdr ++ recordBytes shortCapture) fun _ => 0) 76 2048 (fun _ => .readSingle true) 3 0
      24).map List.length = some 1 := by
    decide +kernel
  have two : (drain (.ofFile (pcapHdr ++ recordBytes shortCapture) fun _ => 0) 76 2048 (fun _ => .read 2 fun _ => true)
      3 0 24).map List.length = some 2 := by
    decide +kernel
  obtain ⟨singles, first, count⟩ := Option.map_eq_some_iff.mp one
  obtain ⟨batches, second, count'⟩ := Option.map_eq_some_iff.mp two
  exact ⟨singles, batches, first, second, count, count'⟩

end MoonGen
