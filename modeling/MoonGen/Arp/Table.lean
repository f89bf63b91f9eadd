import Mathlib.Data.Fintype.Basic
import Mathlib.Tactic.Linarith
import MoonGen.Lib.Machine

namespace MoonGen

open Function List

inductive ArpState where
  | pending
  | requested
  | current
  | refreshing
  deriving DecidableEq

/-- A value of the ARP table. Fields that the source leaves unset are `none`. -/
structure ArpEntry (μ : Type) where
  state : ArpState
  mac : Option μ
  timestamp : Rat
  lookupTime : Option Rat
  updateTime : Option Rat
  deriving DecidableEq

def arpAgingTime : Rat := 30

/-- What a maintenance pass does with an entry. -/
inductive Upkeep (μ : Type) where
  | keep
  | timedOut
  | request (e : ArpEntry μ)

/-- The callback of `forEach`. It fails when it has to add to a `lookupTime` that is
not set. -/
def ArpEntry.upkeep {μ : Type} (e : ArpEntry μ) (ts : Rat) : Option (Upkeep μ) :=
  if e.state = .current ∧ e.timestamp + arpAgingTime > ts then some .keep
  else if (e.state = .requested ∨ e.state = .refreshing) ∧ e.timestamp + 1 > ts then some .keep
  else match e.state with
    | .refreshing | .requested => e.lookupTime.map fun lookupTime =>
        if lookupTime + arpAgingTime < ts then .timedOut else .request { e with timestamp := ts }
    | .current => some (.request { e with state := .refreshing, lookupTime := some ts, timestamp := ts })
    | .pending => some (.request { e with state := .requested, lookupTime := some ts, timestamp := ts })

/-- The table during a pass, with the time of the last callback and the keys whose
entries have timed out. -/
structure Sweep (K μ : Type) where
  clock : Rat
  table : K → Option (ArpEntry μ)
  timedOut : List K

/-- Where the ARP task is between two accesses to the table. -/
inductive ArpPc (K μ : Type) where
  | idle
  | storing (ip : K) (e : ArpEntry μ)
  | removing (ips : List K)
  | failed
  deriving DecidableEq

def ArpPc.isStoring {K μ : Type} : ArpPc K μ → Bool
  | storing _ _ => true
  | _ => false

def ArpPc.isRemoving {K μ : Type} : ArpPc K μ → Bool
  | removing _ => true
  | _ => false

/-- The table with the ARP task and the tasks that look up addresses. A lookup that
has found nothing is about to insert its key. -/
structure Arp (K μ ι : Type) where
  clock : Rat
  table : K → Option (ArpEntry μ)
  task : ArpPc K μ
  asking : ι → Option K

/-- The accesses to the table, with the times that they read. A pass visits the
entries in some order. -/
inductive ArpAct (K μ ι : Type) where
  | retrieve (i : ι) (ip : K)
  | insert (i : ι) (now : Rat)
  | reply (ip : K) (mac : μ) (now later : Rat)
  | store
  | pass (order : List (K × Rat))
  | remove

namespace Arp

variable {K μ ι : Type} [DecidableEq K] [DecidableEq ι]

/-- `forEach` over the table. -/
def forEach : List (K × Rat) → Sweep K μ → Option (Sweep K μ)
  | [], w => some w
  | (ip, ts) :: order, w =>
    match w.table ip with
    | none => forEach order { w with clock := ts }
    | some e => (e.upkeep ts).bind fun
      | .keep => forEach order { w with clock := ts }
      | .timedOut => forEach order { w with clock := ts, timedOut := w.timedOut ++ [ip] }
      | .request e => forEach order { w with clock := ts, table := update w.table ip (some e) }

def step (s : Arp K μ ι) : ArpAct K μ ι → Arp K μ ι
  | .retrieve i ip => if (s.table ip).isSome then s else { s with asking := update s.asking i (some ip) }
  | .insert i now =>
    match s.asking i with
    | none => s
    | some ip =>
      { s with
        clock := now
        table := if (s.table ip).isSome then s.table
          else update s.table ip (some ⟨.pending, none, now, none, none⟩)
        asking := update s.asking i none }
  | .reply ip mac now later =>
    { s with clock := later, task := .storing ip ⟨.current, some mac, now, none, some later⟩ }
  | .store =>
    match s.task with
    | .storing ip e => { s with table := update s.table ip (some e), task := .idle }
    | _ => s
  | .pass order =>
    match forEach order ⟨s.clock, s.table, []⟩ with
    | some w => { s with clock := w.clock, table := w.table, task := .removing w.timedOut }
    | none => { s with task := .failed }
  | .remove =>
    match s.task with
    | .removing (ip :: ips) => { s with table := update s.table ip none, task := .removing ips }
    | .removing [] => { s with task := .idle }
    | _ => s

/-- The clock never goes back, and the ARP task does one thing after the other. A pass
visits every entry once. -/
def Able (s : Arp K μ ι) : ArpAct K μ ι → Prop
  | .retrieve i _ => s.asking i = none
  | .insert i now => s.asking i ≠ none ∧ s.clock ≤ now
  | .reply _ _ now later => s.task = .idle ∧ s.clock ≤ now ∧ now ≤ later
  | .store => s.task.isStoring = true
  | .pass order => s.task = .idle ∧ (order.map Prod.fst).Nodup ∧
      (∀ ip, ip ∈ order.map Prod.fst ↔ (s.table ip).isSome = true) ∧ (s.clock :: order.map Prod.snd).Pairwise (· ≤ ·)
  | .remove => s.task.isRemoving = true

instance [Fintype K] [DecidableEq μ] (s : Arp K μ ι) (a : ArpAct K μ ι) : Decidable (s.Able a) := by
  unfold Able
  split <;> infer_instance

def machine (K μ ι : Type) [DecidableEq K] [DecidableEq ι] : Machine (Arp K μ ι) (ArpAct K μ ι) where
  start s := s.table = (fun _ => none) ∧ s.task = .idle ∧ s.asking = fun _ => none
  enabled := Able
  next := step

/-- The replies for an address, with the time at which each is handled. -/
def heard (_ : Arp K μ ι) : ArpAct K μ ι → Option (K × Rat)
  | .reply ip _ now _ => some (ip, now)
  | _ => none

end Arp

namespace ArpEntry

variable {μ : Type} {e : ArpEntry μ} {ts : Rat}

/-- A request for the entry is out since some time. -/
def Waits (e : ArpEntry μ) (since : Rat) : Prop :=
  (e.state = .requested ∨ e.state = .refreshing) ∧ e.lookupTime = some since

/-- A MAC is there in the two states that promise one, and the time of the lookup in
the two states that wait for a reply. -/
structure Valid (e : ArpEntry μ) : Prop where
  mac : e.mac.isSome = true ↔ e.state = .current ∨ e.state = .refreshing
  lookup : e.state = .requested ∨ e.state = .refreshing → ∃ since, e.lookupTime = some since ∧ since ≤ e.timestamp

/-- An entry that waits for a reply is asked for again or has timed out. -/
theorem upkeep_of_waits (since : Rat) (waits : e.Waits since) (recent : ¬e.timestamp + 1 > ts) :
    e.upkeep ts = some (if since + arpAgingTime < ts then .timedOut else .request { e with timestamp := ts }) := by
  obtain ⟨state | state, lookup⟩ := waits <;> simp [upkeep, state, lookup, recent]

theorem upkeep_of_recent (waits : e.state = .requested ∨ e.state = .refreshing) (recent : e.timestamp + 1 > ts) :
    e.upkeep ts = some .keep := by
  rcases waits with state | state <;> simp [upkeep, state, recent]

/-- The entry when its first request goes out. -/
def ask (e : ArpEntry μ) (state : ArpState) (ts : Rat) : ArpEntry μ :=
  { e with state := state, lookupTime := some ts, timestamp := ts }

theorem valid_ask {state : ArpState} (mac : e.mac.isSome = true ↔ state = .current ∨ state = .refreshing) :
    (e.ask state ts).Valid :=
  ⟨mac, fun _ => ⟨ts, rfl, le_rfl⟩⟩

theorem waits_ask {state : ArpState} {since : Rat} (waits : (e.ask state ts).Waits since) :
    e.Waits since ∨ since = ts :=
  .inr (Option.some.inj waits.2).symm

theorem Valid.upkeep (valid : e.Valid) (ts : Rat) :
    e.upkeep ts = some .keep ∨
      (e.upkeep ts = some .timedOut ∧ ∃ since, e.Waits since ∧ since + arpAgingTime < ts) ∨
      ∃ e', e.upkeep ts = some (.request e') ∧ e'.Valid ∧ ∀ since, e'.Waits since → e.Waits since ∨ since = ts := by
  obtain ⟨mac, lookup⟩ := valid
  by_cases asked : e.state = .requested ∨ e.state = .refreshing
  · obtain ⟨since, set, order⟩ := lookup asked
    by_cases recent : e.timestamp + 1 > ts
    · exact .inl (upkeep_of_recent asked recent)
    have outcome := upkeep_of_waits since ⟨asked, set⟩ recent
    by_cases late : since + arpAgingTime < ts
    · exact .inr (.inl ⟨by rw [outcome, if_pos late], since, ⟨asked, set⟩, late⟩)
    · refine .inr (.inr ⟨{ e with timestamp := ts }, by rw [outcome, if_neg late], ⟨mac, fun _ => ⟨since, set, ?_⟩⟩,
        fun _ => .inl⟩)
      change since ≤ ts
      linarith
  · cases state : e.state with
    | requested | refreshing => simp [state] at asked
    | pending =>
      refine .inr (.inr ⟨e.ask .requested ts, by simp [ArpEntry.upkeep, state, ask], valid_ask ?_, fun _ => waits_ask⟩)
      simpa [state] using mac
    | current =>
      by_cases recent : e.timestamp + arpAgingTime > ts
      · exact .inl (by simp [ArpEntry.upkeep, state, recent])
      refine .inr (.inr ⟨e.ask .refreshing ts, by simp [ArpEntry.upkeep, state, recent, ask], valid_ask ?_,
        fun _ => waits_ask⟩)
      simpa [state] using mac

end ArpEntry

/-- A table whose entries are valid and hear of no reply that came after their
lookup. The keys to remove have waited too long. -/
structure Sweep.Sound {K μ : Type} (log : List (K × Rat)) (w : Sweep K μ) : Prop where
  valid : ∀ ip e, w.table ip = some e → e.Valid
  quiet : ∀ ip e since, w.table ip = some e → e.Waits since → ∀ h, (ip, h) ∈ log → h ≤ since
  past : ∀ ip h, (ip, h) ∈ log → h ≤ w.clock
  once : w.timedOut.Nodup
  late : ∀ ip ∈ w.timedOut, ∃ e since, w.table ip = some e ∧ e.Waits since ∧ since + arpAgingTime < w.clock

namespace Sweep.Sound

variable {K μ : Type} {log : List (K × Rat)} {w : Sweep K μ} {ip : K} {now : Rat}

theorem later (sound : w.Sound log) (order : w.clock ≤ now) : Sound log { w with clock := now } where
  __ := sound
  past ip h member := (sound.past ip h member).trans order
  late ip member := by
    obtain ⟨e, since, entry, waits, long⟩ := sound.late ip member
    exact ⟨e, since, entry, waits, long.trans_le order⟩

/-- A further entry has timed out. -/
theorem timeOut (sound : w.Sound log) (fresh : ip ∉ w.timedOut)
    (late : ∃ e since, w.table ip = some e ∧ e.Waits since ∧ since + arpAgingTime < w.clock) :
    Sound log { w with timedOut := w.timedOut ++ [ip] } where
  __ := sound
  once := by
    rw [← concat_eq_append]
    exact sound.once.concat fresh
  late := forall_mem_append.mpr ⟨sound.late, by simpa using late⟩

/-- A reply is heard for a key whose entry does not wait for one. -/
theorem hear (sound : w.Sound log) (answered : ∀ e since, w.table ip = some e → ¬e.Waits since)
    (order : now ≤ w.clock) : Sound (log ++ [(ip, now)]) w where
  __ := sound
  quiet ip' e since entry waits h member := by
    rcases mem_append.mp member with before | new
    · exact sound.quiet ip' e since entry waits h before
    · obtain ⟨rfl, rfl⟩ : ip' = ip ∧ h = now := by simpa using new
      exact absurd waits (answered e since entry)
  past ip' h member := by
    rcases mem_append.mp member with before | new
    · exact sound.past ip' h before
    · obtain ⟨rfl, rfl⟩ : ip' = ip ∧ h = now := by simpa using new
      exact order

variable [DecidableEq K]

/-- Where an entry of a changed table comes from. -/
theorem entry_update {table : K → Option (ArpEntry μ)} {v : Option (ArpEntry μ)} {ip' : K} {e : ArpEntry μ}
    (entry : update table ip v ip' = some e) : ip' = ip ∧ v = some e ∨ table ip' = some e := by
  by_cases same : ip' = ip
  · subst same
    rw [update_self] at entry
    exact .inl ⟨rfl, entry⟩
  · rw [update_of_ne same] at entry
    exact .inr entry

/-- A new entry for a key that has not timed out. -/
theorem update (sound : w.Sound log) {e : ArpEntry μ} (valid : e.Valid)
    (quiet : ∀ since, e.Waits since → ∀ h, (ip, h) ∈ log → h ≤ since) (fresh : ip ∉ w.timedOut) :
    Sound log { w with table := update w.table ip (some e) } where
  valid ip' e' entry := by
    rcases entry_update entry with ⟨_, new⟩ | old
    · exact Option.some.inj new ▸ valid
    · exact sound.valid ip' e' old
  quiet ip' e' since entry waits := by
    rcases entry_update entry with ⟨rfl, new⟩ | old
    · obtain rfl := Option.some.inj new
      exact quiet since waits
    · exact sound.quiet ip' e' since old waits
  past := sound.past
  once := sound.once
  late ip' member := by
    have other : ip' ≠ ip := fun same => fresh (same ▸ member)
    obtain ⟨e', since, entry, rest⟩ := sound.late ip' member
    exact ⟨e', since, by simpa [other] using entry, rest⟩

/-- The first entry that has timed out is removed. -/
theorem remove {table : K → Option (ArpEntry μ)} {ips : List K} (sound : Sound log ⟨now, table, ip :: ips⟩) :
    Sound log ⟨now, Function.update table ip none, ips⟩ where
  valid ip' e' entry := by
    rcases entry_update entry with ⟨_, new⟩ | old
    · contradiction
    · exact sound.valid ip' e' old
  quiet ip' e' since entry waits := by
    rcases entry_update entry with ⟨_, new⟩ | old
    · contradiction
    · exact sound.quiet ip' e' since old waits
  past := sound.past
  once := (nodup_cons.mp sound.once).2
  late ip' member := by
    have other : ip' ≠ ip := fun same => (nodup_cons.mp sound.once).1 (same ▸ member)
    obtain ⟨e', since, entry, rest⟩ := sound.late ip' (mem_cons_of_mem _ member)
    exact ⟨e', since, by simpa [other] using entry, rest⟩

/-- A pass neither fails nor loses an entry. -/
theorem forEach (order : List (K × Rat)) (sound : w.Sound log) (keys : (order.map Prod.fst).Nodup)
    (fresh : ∀ ip ∈ w.timedOut, ip ∉ order.map Prod.fst) (times : (w.clock :: order.map Prod.snd).Pairwise (· ≤ ·)) :
    ∃ w', Arp.forEach order w = some w' ∧ w'.Sound log ∧ ∀ ip, w'.table ip = none → w.table ip = none := by
  induction order generalizing w with
  | nil => exact ⟨w, rfl, sound, fun _ => id⟩
  | cons visit order ih =>
    obtain ⟨ip, ts⟩ := visit
    simp only [map_cons, nodup_cons] at keys
    rw [map_cons, pairwise_cons] at times
    have now : w.clock ≤ ts := times.1 ts (mem_cons_self ..)
    have rest : ∀ ip ∈ w.timedOut, ip ∉ order.map Prod.fst := fun ip member =>
      fun inside => fresh ip member (mem_cons_of_mem _ inside)
    have here : ip ∉ w.timedOut := fun member => fresh ip member (mem_cons_self ..)
    cases entry : w.table ip with
    | none =>
      simp only [Arp.forEach, entry]
      exact ih (sound.later now) keys.2 rest times.2
    | some e =>
      rcases (sound.valid ip e entry).upkeep ts with
        outcome | ⟨outcome, since, waits, long⟩ | ⟨e', outcome, valid, quiet⟩
      · simp only [Arp.forEach, entry, outcome, Option.bind_some]
        exact ih (sound.later now) keys.2 rest times.2
      · simp only [Arp.forEach, entry, outcome, Option.bind_some]
        exact ih ((sound.later now).timeOut here ⟨e, since, entry, waits, long⟩) keys.2
          (forall_mem_append.mpr ⟨rest, by simpa using keys.1⟩) times.2
      · simp only [Arp.forEach, entry, outcome, Option.bind_some]
        have quiet' : ∀ since, e'.Waits since → ∀ h, (ip, h) ∈ log → h ≤ since := by
          intro since waits h member
          rcases quiet since waits with waits | rfl
          · exact sound.quiet ip e since entry waits h member
          · exact (sound.past ip h member).trans now
        obtain ⟨w', run, sound', kept⟩ := ih ((sound.later now).update valid quiet' here) keys.2 rest times.2
        refine ⟨w', run, sound', fun ip' absent => ?_⟩
        have before := kept ip' absent
        by_cases same : ip' = ip
        · subst same
          simp at before
        · simpa [same] using before

end Sweep.Sound

namespace Arp

variable {K μ ι : Type} [DecidableEq K] [DecidableEq ι] {s : Arp K μ ι} {log : List (K × Rat)} {ip : K} {now : Rat}

/-- What is sound about the table, with the entry that the task is about to store. -/
def Sound (log : List (K × Rat)) (s : Arp K μ ι) : Prop :=
  match s.task with
  | .idle => Sweep.Sound log ⟨s.clock, s.table, []⟩
  | .storing ip e =>
    Sweep.Sound log ⟨s.clock, update s.table ip (some e), []⟩ ∧ ∀ e', s.table ip = some e' → e'.Valid
  | .removing ips => Sweep.Sound log ⟨s.clock, s.table, ips⟩
  | .failed => False

omit [DecidableEq ι] in
theorem Sound.valid (sound : s.Sound log) {e : ArpEntry μ} (entry : s.table ip = some e) : e.Valid := by
  unfold Sound at sound
  split at sound
  · exact sound.valid ip e entry
  · rename_i ip' e' _
    by_cases same : ip = ip'
    · subst same
      exact sound.2 e entry
    · exact sound.1.valid ip e (by simpa [same] using entry)
  · exact sound.valid ip e entry
  · contradiction

theorem pending_update {w : Sweep K μ} (sound : w.Sound log) (order : w.clock ≤ now) (fresh : ip ∉ w.timedOut) :
    Sweep.Sound log ⟨now, update w.table ip (some ⟨.pending, none, now, none, none⟩), w.timedOut⟩ := by
  refine (sound.later order).update ⟨by simp, by simp⟩ (fun since waits => ?_) fresh
  simp [ArpEntry.Waits] at waits

omit [DecidableEq ι] in
theorem Sound.later (sound : s.Sound log) (order : s.clock ≤ now) (asking : ι → Option K) :
    Sound log ⟨now, s.table, s.task, asking⟩ := by
  unfold Sound at sound ⊢
  dsimp only
  split at sound
  · exact Sweep.Sound.later sound order
  · exact ⟨sound.1.later order, sound.2⟩
  · exact Sweep.Sound.later sound order
  · contradiction

omit [DecidableEq ι] in
/-- A lookup inserts a key that is absent. -/
theorem Sound.insert (sound : s.Sound log) (order : s.clock ≤ now) (absent : s.table ip = none)
    (asking : ι → Option K) :
    Sound log ⟨now, update s.table ip (some ⟨.pending, none, now, none, none⟩), s.task, asking⟩ := by
  cases task : s.task with
  | failed => simp [Sound, task] at sound
  | idle =>
    simp only [Sound, task] at sound ⊢
    exact pending_update sound order (by simp)
  | removing ips =>
    simp only [Sound, task] at sound ⊢
    refine pending_update sound order fun member => ?_
    obtain ⟨e, _, entry, _⟩ := sound.late ip member
    simp [absent] at entry
  | storing ip' e =>
    simp only [Sound, task] at sound ⊢
    by_cases same : ip = ip'
    · subst same
      rw [update_idem]
      refine ⟨sound.1.later order, fun e' entry => ?_⟩
      obtain rfl : _ = e' := by simpa using entry
      exact ⟨by simp, by simp⟩
    · rw [update_comm same]
      refine ⟨pending_update sound.1 order (by simp), fun e' entry => sound.2 e' ?_⟩
      simpa [Ne.symm same] using entry

omit [DecidableEq ι] in
/-- A reply is heard, and its entry is to be stored. -/
theorem Sound.reply {later : Rat} (sound : Sweep.Sound log ⟨s.clock, s.table, []⟩) (mac : μ) (order : s.clock ≤ now)
    (order' : now ≤ later) :
    Sound (log ++ [(ip, now)])
      { s with clock := later, task := .storing ip ⟨.current, some mac, now, none, some later⟩ } := by
  have answered (since : Rat) : ¬(⟨.current, some mac, now, none, some later⟩ : ArpEntry μ).Waits since := by
    simp [ArpEntry.Waits]
  refine ⟨Sweep.Sound.hear ?_ (fun e since entry => ?_) order', fun e => sound.valid ip e⟩
  · refine (sound.later (order.trans order')).update ⟨by simp, by simp⟩ (fun since waits => ?_) (by simp)
    exact absurd waits (answered since)
  · obtain rfl : _ = e := by simpa using entry
    exact answered since

theorem sound_step {a : ArpAct K μ ι} (sound : s.Sound log) (able : s.Able a) :
    (s.step a).Sound (log ++ (heard s a).toList) := by
  cases a with
  | retrieve i ip =>
    simp only [step, heard, Option.toList_none, append_nil]
    split <;> exact sound
  | insert i now =>
    simp only [step, heard, Option.toList_none, append_nil]
    split
    · exact sound
    · rename_i ip _
      cases entry : s.table ip with
      | none =>
        simp only [Option.isSome_none, Bool.false_eq_true, if_false]
        exact sound.insert able.2 entry _
      | some e =>
        simp only [Option.isSome_some, if_true]
        exact sound.later able.2 _
  | reply ip mac now later =>
    obtain ⟨idle, order, order'⟩ := able
    simp only [Sound, idle] at sound
    exact Sound.reply sound mac order order'
  | store =>
    cases task : s.task <;> simp only [Able, task, ArpPc.isStoring, Bool.false_eq_true] at able
    simp only [Sound, task] at sound
    simp only [step, task, heard, Option.toList_none, append_nil]
    exact sound.1
  | pass order =>
    obtain ⟨idle, keys, _, times⟩ := able
    simp only [Sound, idle] at sound
    obtain ⟨w, run, sound, _⟩ := sound.forEach order keys (by simp) times
    simp only [step, run, heard, Option.toList_none, append_nil]
    exact sound
  | remove =>
    cases task : s.task <;> simp only [Able, task, ArpPc.isRemoving, Bool.false_eq_true] at able
    rename_i ips
    simp only [Sound, task] at sound
    simp only [step, task, heard, Option.toList_none, append_nil]
    cases ips with
    | nil => exact sound
    | cons ip ips => exact sound.remove

theorem sound_reach {t : Arp K μ ι × List (K × Rat)} (reach : ((machine K μ ι).logged heard).Reach t) :
    t.1.Sound t.2 := by
  induction reach with
  | @start t first =>
    obtain ⟨⟨table, task, _⟩, log⟩ := first
    simp only [Sound, task, table, log]
    exact ⟨by simp, by simp, by simp, by simp, by simp⟩
  | step _ able ih => exact sound_step ih able

/-- Only a removal makes an entry disappear, and only the one it is about. -/
theorem removing_of_absent {a : ArpAct K μ ι} (sound : s.Sound log) (able : s.Able a) {e : ArpEntry μ}
    (entry : s.table ip = some e) (gone : (s.step a).table ip = none) :
    ∃ ips, s.task = .removing (ip :: ips) := by
  have present {ip' : K} {e' : ArpEntry μ} : update s.table ip' (some e') ip ≠ none := by
    by_cases same : ip = ip'
    · simp [same]
    · simp [same, entry]
  cases a with
  | retrieve i ip' =>
    simp only [step] at gone
    split at gone <;> simp [entry] at gone
  | insert i now =>
    simp only [step] at gone
    split at gone
    · simp [entry] at gone
    · split at gone
      · simp [entry] at gone
      · exact absurd gone present
  | reply ip' mac now later => simp [step, entry] at gone
  | store =>
    simp only [step] at gone
    split at gone
    · exact absurd gone present
    · simp [entry] at gone
  | pass order =>
    obtain ⟨idle, keys, _, times⟩ := able
    simp only [Sound, idle] at sound
    obtain ⟨w, run, _, kept⟩ := sound.forEach order keys (by simp) times
    simp only [step, run] at gone
    have absent : s.table ip = none := kept ip gone
    simp [absent] at entry
  | remove =>
    simp only [step] at gone
    split at gone
    · rename_i ip' ips task
      by_cases same : ip = ip'
      · exact ⟨ips, same ▸ task⟩
      · simp [same, entry] at gone
    · simp [entry] at gone
    · simp [entry] at gone

/-- The ARP table in every run: the ARP task never fails, the entries are valid, a
lookup leaves all entries alone, and one disappears only after it has waited for a
reply for longer than the aging time. -/
theorem arp_table_sound {t : Arp K μ ι × List (K × Rat)} (reach : ((machine K μ ι).logged heard).Reach t) :
    t.1.task ≠ .failed ∧
      (∀ ip e, t.1.table ip = some e →
        (e.mac.isSome = true ↔ e.state = .current ∨ e.state = .refreshing) ∧
          (e.state = .requested ∨ e.state = .refreshing →
            ∃ since, e.lookupTime = some since ∧ since ≤ e.timestamp)) ∧
      (∀ ip e, t.1.table ip = some e → ∀ i, (∀ ip', (t.1.step (.retrieve i ip')).table ip = some e) ∧
        ∀ now, (t.1.step (.insert i now)).table ip = some e) ∧
      ∀ a, t.1.Able a → ∀ ip e, t.1.table ip = some e → (t.1.step a).table ip = none →
        (e.state = .requested ∨ e.state = .refreshing) ∧
          ∃ since, e.lookupTime = some since ∧ since + arpAgingTime < t.1.clock ∧
            ∀ h, (ip, h) ∈ t.2 → h ≤ since := by
  have sound := sound_reach reach
  refine ⟨fun failed => ?_, fun ip e entry => ?_, fun ip e entry i => ⟨fun ip' => ?_, fun now => ?_⟩,
    fun a able ip e entry gone => ?_⟩
  · simp [Sound, failed] at sound
  · exact ⟨(sound.valid entry).mac, (sound.valid entry).lookup⟩
  · simp only [step]
    split <;> exact entry
  · simp only [step]
    split
    · exact entry
    · split
      · exact entry
      · rename_i ip' _ absent
        have other : ip ≠ ip' := by
          rintro rfl
          simp [entry] at absent
        simpa [other] using entry
  · obtain ⟨ips, task⟩ := removing_of_absent sound able entry gone
    simp only [Sound, task] at sound
    obtain ⟨e', since, entry', waits, long⟩ := sound.late ip (mem_cons_self ..)
    obtain rfl : e = e' := Option.some.inj (entry.symm.trans entry')
    exact ⟨waits.1, since, waits.2, long, sound.quiet ip e since entry waits⟩

instance [Fintype K] [DecidableEq μ] (s : Arp K μ ι) (a : ArpAct K μ ι) : Decidable ((machine K μ ι).enabled s a) :=
  inferInstanceAs (Decidable (s.Able a))

/-- A lookup that nobody answers, seen by two passes half a minute apart. -/
def unanswered : List (ArpAct Unit Unit Unit) :=
  [.retrieve () (), .insert () 0, .pass [((), 1)], .remove, .pass [((), 32)]]

def emptyTable : Arp Unit Unit Unit := ⟨0, fun _ => none, .idle, fun _ => none⟩

theorem arp_table_sound_unanswered : ∃ t : Arp Unit Unit Unit × List (Unit × Rat), ∃ e,
    ((machine Unit Unit Unit).logged heard).Reach t ∧ t.1.Able .remove ∧ t.1.table () = some e ∧
      (t.1.step .remove).table () = none ∧ ∃ since, e.lookupTime = some since ∧ since + arpAgingTime < t.1.clock := by
  have run : ((machine Unit Unit Unit).logged heard).leadsTo (fun t => t.1.task.isRemoving && (t.1.table ()).isSome &&
      ((t.1.step .remove).table ()).isNone) (emptyTable, []) unanswered = true := by decide +kernel
  obtain ⟨t, reach, test⟩ := Machine.reach_of_leadsTo run (.start ⟨⟨rfl, rfl, rfl⟩, rfl⟩)
  simp only [Bool.and_eq_true, Option.isSome_iff_exists, Option.isNone_iff_eq_none] at test
  obtain ⟨⟨able, e, entry⟩, gone⟩ := test
  obtain ⟨_, since, lookup, long, _⟩ := (arp_table_sound reach).2.2.2 .remove able () e entry gone
  exact ⟨t, e, reach, able, entry, gone, since, lookup, long⟩

end Arp
end MoonGen
