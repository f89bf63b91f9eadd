import Mathlib.Data.List.Range
import Mathlib.Data.List.Perm.Basic
import Mathlib.Logic.Function.Basic

namespace MoonGen

open List

/-- What `device.config` sets up. -/
structure QueueConfig where
  rxQueues : Nat
  rssQueues : Nat
  txQueues : Nat
deriving DecidableEq, Repr

inductive QueueError
  /-- A method call on a device that is `nil`. -/
  | noDevice
  | fatal (message : String)
deriving DecidableEq, Repr

def QueueConfig.getTxQueue (dev : QueueConfig) (id : Nat) : Except QueueError Nat :=
  if id ≥ dev.txQueues then
    .error (.fatal ("device is configured with tx queues 0 to " ++ toString (dev.txQueues - 1) ++
      ", tried to get queue number " ++ toString id))
  else .ok id

def QueueConfig.getRxQueue (dev : QueueConfig) (id : Nat) : Except QueueError Nat :=
  if id ≥ dev.rxQueues then
    .error (.fatal ("device is configured with rx queues 0 to " ++ toString (dev.rxQueues - 1) ++
      ", tried to get rx queue number " ++ toString id))
  else .ok id

/-- What the device manager keeps of a device: the queues that are reserved, the queues
that are handed out, and the device once it is configured. -/
structure ManagedDevice where
  rxq : Nat := 0
  rsq : Nat := 0
  txq : Nat := 0
  rxqi : Nat := 0
  rsqi : Nat := 0
  txqi : Nat := 0
  dev : Option QueueConfig := none
deriving DecidableEq, Repr

def Devmgr := Nat → Option ManagedDevice

namespace Devmgr

def newDevmgr : Devmgr := fun _ => none

/-- A device that is not there yet starts with all numbers zero. -/
def get (mgr : Devmgr) (key : Nat) : ManagedDevice := (mgr key).getD {}

def set (mgr : Devmgr) (key : Nat) (v : ManagedDevice) : Devmgr :=
  fun i => if i = key then some v else mgr i

def reserveTx (mgr : Devmgr) (tx : Nat) : Devmgr := mgr.set tx { mgr.get tx with txq := (mgr.get tx).txq + 1 }

def reserveRx (mgr : Devmgr) (rx : Nat) : Devmgr := mgr.set rx { mgr.get rx with rxq := (mgr.get rx).rxq + 1 }

def reserveRss (mgr : Devmgr) (rss : Nat) : Devmgr :=
  mgr.set rss { mgr.get rss with rxq := (mgr.get rss).rxq + 1, rsq := (mgr.get rss).rsq + 1 }

/-- A device has at least one queue in each direction. -/
def configureDevice (v : ManagedDevice) : ManagedDevice :=
  let txq := if v.txq = 0 then 1 else v.txq
  let rxq := if v.rxq = 0 then 1 else v.rxq
  { v with dev := some { rxQueues := rxq, rssQueues := v.rsq, txQueues := txq } }

def configure (mgr : Devmgr) : Devmgr := fun i => (mgr i).map configureDevice

/-- A queue of a device, which the manager then counts as handed out. -/
def handOut (mgr : Devmgr) (i : Nat) (queue : QueueConfig → Except QueueError Nat) (counted : ManagedDevice) :
    Except QueueError (Nat × Devmgr) :=
  match (mgr.get i).dev with
  | none => .error .noDevice
  | some dev => do
    let id ← queue dev
    return (id, mgr.set i counted)

def txQueue (mgr : Devmgr) (tx : Nat) : Except QueueError (Nat × Devmgr) :=
  mgr.handOut tx (·.getTxQueue (mgr.get tx).txqi) { mgr.get tx with txqi := (mgr.get tx).txqi + 1 }

/-- The queues for hashed packets come before the others. -/
def rxQueue (mgr : Devmgr) (rx : Nat) : Except QueueError (Nat × Devmgr) :=
  mgr.handOut rx (·.getRxQueue ((mgr.get rx).rsq + (mgr.get rx).rxqi))
    { mgr.get rx with rxqi := (mgr.get rx).rxqi + 1 }

def rssQueue (mgr : Devmgr) (rx : Nat) : Except QueueError (Nat × Devmgr) :=
  mgr.handOut rx (·.getRxQueue (mgr.get rx).rsqi) { mgr.get rx with rsqi := (mgr.get rx).rsqi + 1 }

end Devmgr

inductive QueueKind
  | tx
  | rx
  | rss
deriving DecidableEq, Repr

/-- A queue of some kind on some device. -/
abbrev QueueCall := QueueKind × Nat

namespace Devmgr

def reserve (mgr : Devmgr) : QueueCall → Devmgr
  | (.tx, d) => mgr.reserveTx d
  | (.rx, d) => mgr.reserveRx d
  | (.rss, d) => mgr.reserveRss d

def request (mgr : Devmgr) : QueueCall → Except QueueError (Nat × Devmgr)
  | (.tx, d) => mgr.txQueue d
  | (.rx, d) => mgr.rxQueue d
  | (.rss, d) => mgr.rssQueue d

/-- The ids that a row of requests gets, each with its request. -/
def requests (mgr : Devmgr) : List QueueCall → Except QueueError (List (QueueCall × Nat) × Devmgr)
  | [] => .ok ([], mgr)
  | call :: calls => do
    let (id, mgr) ← mgr.request call
    let (out, mgr) ← mgr.requests calls
    return ((call, id) :: out, mgr)

end Devmgr

/-- The ids of one kind that a device handed out. -/
def queueIds (call : QueueCall) (out : List (QueueCall × Nat)) : List Nat :=
  out.filterMap fun (other, id) => if other = call then some id else none

namespace ManagedDevice

/-- The first id of a kind that is not handed out. -/
def next (v : ManagedDevice) : QueueKind → Nat
  | .tx => v.txqi
  | .rx => v.rsq + v.rxqi
  | .rss => v.rsqi

def bump (v : ManagedDevice) : QueueKind → ManagedDevice
  | .tx => { v with txqi := v.txqi + 1 }
  | .rx => { v with rxqi := v.rxqi + 1 }
  | .rss => { v with rsqi := v.rsqi + 1 }

@[simp] theorem bump_dev (v : ManagedDevice) (kind : QueueKind) : (v.bump kind).dev = v.dev := by
  cases kind <;> rfl

theorem next_bump (v : ManagedDevice) (kind other : QueueKind) :
    (v.bump kind).next other = v.next other + if kind = other then 1 else 0 := by
  cases kind <;> cases other <;> rfl

end ManagedDevice

/-- The bound that a device puts on the ids of a kind. -/
def QueueConfig.limit (dev : QueueConfig) : QueueKind → Nat
  | .tx => dev.txQueues
  | .rx | .rss => dev.rxQueues

namespace Devmgr
variable (mgr : Devmgr)

@[simp] theorem get_set_self (d : Nat) (v : ManagedDevice) : (mgr.set d v).get d = v := by
  rw [get, set, if_pos rfl, Option.getD_some]

theorem get_set_of_ne {d e : Nat} (other : e ≠ d) (v : ManagedDevice) : (mgr.set d v).get e = mgr.get e := by
  rw [get, set, if_neg other, get]

variable {mgr}

theorem handOut_ok {i id : Nat} {dev : QueueConfig} {queue : QueueConfig → Except QueueError Nat}
    (configured : (mgr.get i).dev = some dev) (found : queue dev = .ok id) (counted : ManagedDevice) :
    mgr.handOut i queue counted = .ok (id, mgr.set i counted) := by
  rw [handOut, configured]
  simp only [found]
  rfl

/-- A request below the bound gets the next id of its kind. -/
theorem request_ok {kind : QueueKind} {d : Nat} {dev : QueueConfig} (configured : (mgr.get d).dev = some dev)
    (room : (mgr.get d).next kind < dev.limit kind) :
    mgr.request (kind, d) = .ok ((mgr.get d).next kind, mgr.set d ((mgr.get d).bump kind)) := by
  cases kind with
  | tx => exact handOut_ok configured (if_neg (Nat.not_le.mpr room)) _
  | rx => exact handOut_ok configured (if_neg (Nat.not_le.mpr room)) _
  | rss => exact handOut_ok configured (if_neg (Nat.not_le.mpr room)) _

/-- The devices can serve all requests. -/
def Serves (mgr : Devmgr) (calls : List QueueCall) : Prop :=
  ∀ kind d, (kind, d) ∈ calls →
    ∃ dev, (mgr.get d).dev = some dev ∧ (mgr.get d).next kind + calls.count (kind, d) ≤ dev.limit kind

theorem next_set_bump (kind other : QueueKind) (d e : Nat) :
    ((mgr.set d ((mgr.get d).bump kind)).get e).next other =
      (mgr.get e).next other + if (kind, d) = (other, e) then 1 else 0 := by
  by_cases same : e = d
  · subst same
    rw [get_set_self, ManagedDevice.next_bump]
    simp only [Prod.mk.injEq, and_true]
  · rw [get_set_of_ne _ same, if_neg fun both => same (Prod.mk.inj both).2.symm, Nat.add_zero]

theorem dev_set_bump (kind : QueueKind) (d e : Nat) :
    ((mgr.set d ((mgr.get d).bump kind)).get e).dev = (mgr.get e).dev := by
  by_cases same : e = d
  · subst same
    rw [get_set_self, ManagedDevice.bump_dev]
  · rw [get_set_of_ne _ same]

theorem Serves.tail {kind : QueueKind} {d : Nat} {calls : List QueueCall} (serves : Serves mgr ((kind, d) :: calls)) :
    Serves (mgr.set d ((mgr.get d).bump kind)) calls := by
  intro other e member
  obtain ⟨dev, configured, room⟩ := serves other e (mem_cons_of_mem _ member)
  refine ⟨dev, (dev_set_bump kind d e).trans configured, ?_⟩
  rw [count_cons] at room
  rw [next_set_bump]
  simp only [beq_iff_eq] at room
  omega

/-- Requests that the devices can serve get consecutive ids of their kind. -/
theorem requests_ok {calls : List QueueCall} (serves : Serves mgr calls) :
    ∃ out mgr', mgr.requests calls = .ok (out, mgr') ∧ out.map Prod.fst = calls ∧
      ∀ kind d, queueIds (kind, d) out = List.range' ((mgr.get d).next kind) (calls.count (kind, d)) := by
  induction calls generalizing mgr with
  | nil => exact ⟨[], mgr, rfl, rfl, fun _ _ => rfl⟩
  | cons call calls ih =>
    obtain ⟨kind, d⟩ := call
    obtain ⟨dev, configured, room⟩ := serves kind d mem_cons_self
    have positive := count_pos_iff.mpr (mem_cons_self (a := (kind, d)) (l := calls))
    have below : (mgr.get d).next kind < dev.limit kind := by omega
    have served := request_ok configured below
    obtain ⟨out, mgr', rest, asked, ids⟩ := ih serves.tail
    refine ⟨((kind, d), (mgr.get d).next kind) :: out, mgr', ?_, ?_, fun other e => ?_⟩
    · rw [requests, served]
      simp only [bind, Except.bind, rest]
      rfl
    · rw [map_cons, asked]
    · have behind := ids other e
      rw [next_set_bump] at behind
      rw [queueIds, filterMap_cons, count_cons]
      by_cases same : (kind, d) = (other, e)
      · obtain ⟨rfl, rfl⟩ := Prod.mk.inj same
        rw [if_pos rfl] at behind
        simp only [↓reduceIte, beq_self_eq_true]
        rw [range'_succ, ← behind, queueIds]
      · rw [if_neg same, Nat.add_zero] at behind
        simp only [same, ↓reduceIte, beq_iff_eq]
        rw [Nat.add_zero, ← behind, queueIds]

/-- What a row of reservations adds to a device. -/
theorem get_reserve (rs : List QueueCall) (mgr : Devmgr) (d : Nat) :
    (rs.foldl reserve mgr).get d =
      { mgr.get d with
        txq := (mgr.get d).txq + rs.count (.tx, d)
        rxq := (mgr.get d).rxq + (rs.count (.rx, d) + rs.count (.rss, d))
        rsq := (mgr.get d).rsq + rs.count (.rss, d) } := by
  induction rs generalizing mgr with
  | nil => rfl
  | cons call rs ih =>
    obtain ⟨kind, e⟩ := call
    rw [foldl_cons, ih]
    by_cases same : d = e
    · subst same
      cases kind <;> simp [reserve, reserveTx, reserveRx, reserveRss] <;> omega
    · have others : (mgr.reserve (kind, e)).get d = mgr.get d := by
        cases kind <;> exact get_set_of_ne _ same _
      simp [others, Ne.symm same]

theorem get_configure {d : Nat} (present : (mgr d).isSome) : mgr.configure.get d = configureDevice (mgr.get d) := by
  obtain ⟨v, held⟩ := Option.isSome_iff_exists.mp present
  rw [get, configure, held, get, held]
  rfl

/-- The manager once all queues are reserved and the devices are configured. -/
def reserved (rs : List QueueCall) : Devmgr := (rs.foldl reserve newDevmgr).configure

variable {rs calls : List QueueCall} {kind : QueueKind} {d : Nat}

theorem configure_get_rsq (mgr : Devmgr) (d : Nat) : (mgr.configure.get d).rsq = (mgr.get d).rsq := by
  rw [get, configure, get]
  cases mgr d <;> rfl

theorem reserved_rsq (rs : List QueueCall) (d : Nat) : ((reserved rs).get d).rsq = rs.count (.rss, d) := by
  rw [reserved, configure_get_rsq, get_reserve]
  exact Nat.zero_add _

/-- Nothing is handed out yet of what is reserved for a device, and it has room for all of that. -/
theorem reserved_get (member : (kind, d) ∈ rs) :
    ∃ dev, ((reserved rs).get d).dev = some dev ∧ ((reserved rs).get d).rxqi = 0 ∧ ((reserved rs).get d).rsqi = 0 ∧
      ((reserved rs).get d).txqi = 0 ∧ rs.count (.tx, d) ≤ dev.txQueues ∧
      rs.count (.rx, d) + rs.count (.rss, d) ≤ dev.rxQueues := by
  have held := get_reserve rs newDevmgr d
  have counted := count_pos_iff.mpr member
  have present : ((rs.foldl reserve newDevmgr) d).isSome := by
    rw [Option.isSome_iff_ne_none]
    intro absent
    have blank : (rs.foldl reserve newDevmgr).get d = {} := by rw [get, absent, Option.getD_none]
    have fields := ManagedDevice.mk.inj (held.symm.trans blank)
    cases kind <;> omega
  rw [reserved, get_configure present, held]
  refine ⟨_, rfl, rfl, rfl, rfl, ?_⟩
  simp only [newDevmgr, get, Option.getD_none, Nat.zero_add]
  constructor <;> split <;> omega

theorem reserved_next (member : (kind, d) ∈ rs) :
    ((reserved rs).get d).next kind = if kind = .rx then rs.count (.rss, d) else 0 := by
  obtain ⟨dev, _, rxqi, rsqi, txqi, _⟩ := reserved_get member
  cases kind with
  | tx => exact txqi
  | rx => simp only [ManagedDevice.next, reserved_rsq, rxqi, Nat.add_zero, ↓reduceIte]
  | rss => exact rsqi

theorem reserved_serves (perm : calls.Perm rs) : Serves (reserved rs) calls := by
  intro kind d member
  have reservation := perm.mem_iff.mp member
  obtain ⟨dev, configured, _, _, _, tx, rx⟩ := reserved_get reservation
  refine ⟨dev, configured, ?_⟩
  rw [reserved_next reservation, perm.count_eq]
  cases kind <;> simp only [QueueConfig.limit, ↓reduceIte, reduceCtorEq] <;> omega

end Devmgr

/-- The ids that a device handed out are distinct where they share one direction, below
the number of queues, and start with the queues for hashed packets. -/
structure QueueIdsValid (v : ManagedDevice) (d : Nat) (out : List (QueueCall × Nat)) : Prop where
  tx_nodup : (queueIds (.tx, d) out).Nodup
  tx_lt : ∀ id ∈ queueIds (.tx, d) out, ∃ dev, v.dev = some dev ∧ id < dev.txQueues
  rx_nodup : (queueIds (.rx, d) out ++ queueIds (.rss, d) out).Nodup
  rx_lt : ∀ id ∈ queueIds (.rx, d) out ++ queueIds (.rss, d) out, ∃ dev, v.dev = some dev ∧ id < dev.rxQueues
  rss : queueIds (.rss, d) out = List.range v.rsq

/-- The ids of each kind, when the requests are those that were reserved. -/
theorem queueIds_eq {rs calls : List QueueCall} {out : List (QueueCall × Nat)} (perm : calls.Perm rs)
    (ids : ∀ kind d, queueIds (kind, d) out =
      List.range' (((Devmgr.reserved rs).get d).next kind) (calls.count (kind, d))) (kind : QueueKind) (d : Nat) :
    queueIds (kind, d) out =
      List.range' (if kind = .rx then rs.count (.rss, d) else 0) (rs.count (kind, d)) := by
  rw [ids, perm.count_eq]
  by_cases member : (kind, d) ∈ rs
  · rw [Devmgr.reserved_next member]
  · rw [count_eq_zero_of_not_mem member, range'_zero, range'_zero]

/-- Requests in any order for the queues that were reserved all get one, and no two the
same. -/
theorem queue_allocation (rs calls : List QueueCall) (perm : calls.Perm rs) :
    ∃ out mgr', (Devmgr.reserved rs).requests calls = .ok (out, mgr') ∧ out.map Prod.fst = calls ∧
      ∀ d, QueueIdsValid ((Devmgr.reserved rs).get d) d out := by
  obtain ⟨out, mgr', served, asked, ids⟩ := Devmgr.requests_ok (Devmgr.reserved_serves perm)
  refine ⟨out, mgr', served, asked, fun d => ?_⟩
  have range (kind : QueueKind) : queueIds (kind, d) out =
      List.range' (if kind = .rx then rs.count (.rss, d) else 0) (rs.count (kind, d)) := queueIds_eq perm ids kind d
  have tx : queueIds (.tx, d) out = List.range (rs.count (.tx, d)) := (range .tx).trans range_eq_range'.symm
  have rx : queueIds (.rx, d) out = List.range' (rs.count (.rss, d)) (rs.count (.rx, d)) := range .rx
  have rss : queueIds (.rss, d) out = List.range (rs.count (.rss, d)) := (range .rss).trans range_eq_range'.symm
  refine ⟨?_, ?_, ?_, ?_, ?_⟩
  · rw [tx]
    exact nodup_range
  · intro id member
    rw [tx, mem_range] at member
    have reservation : (.tx, d) ∈ rs := count_pos_iff.mp (Nat.zero_lt_of_lt member)
    obtain ⟨dev, configured, _, _, _, room, _⟩ := Devmgr.reserved_get reservation
    exact ⟨dev, configured, by omega⟩
  · rw [rx, rss, nodup_append]
    refine ⟨nodup_range', nodup_range, fun id above other below => ?_⟩
    rw [mem_range'_1] at above
    rw [mem_range] at below
    omega
  · intro id member
    rw [rx, rss, mem_append, mem_range'_1, mem_range] at member
    have reservation : ∃ kind, (kind, d) ∈ rs := by
      rcases member with other | hashed
      · exact ⟨.rx, count_pos_iff.mp (by omega)⟩
      · exact ⟨.rss, count_pos_iff.mp (by omega)⟩
    obtain ⟨kind, reservation⟩ := reservation
    obtain ⟨dev, configured, _, _, _, _, room⟩ := Devmgr.reserved_get reservation
    exact ⟨dev, configured, by omega⟩
  · rw [rss, Devmgr.reserved_rsq]

/-- Two devices with queues of all kinds, asked for in another order. -/
theorem queue_allocation_mixed :
    ∃ out mgr', (Devmgr.reserved [(.tx, 0), (.rss, 0), (.rx, 0), (.rss, 0), (.tx, 1)]).requests
      [(.rx, 0), (.rss, 0), (.tx, 1), (.tx, 0), (.rss, 0)] = .ok (out, mgr') ∧ out.map Prod.snd = [2, 0, 0, 0, 1] := by
  obtain ⟨out, mgr', served, _⟩ := queue_allocation [(.tx, 0), (.rss, 0), (.rx, 0), (.rss, 0), (.tx, 1)]
    [(.rx, 0), (.rss, 0), (.tx, 1), (.tx, 0), (.rss, 0)] (by decide)
  refine ⟨out, mgr', served, ?_⟩
  have known := congrArg (Except.map fun result => result.1.map Prod.snd) served
  exact (Except.ok.inj known).symm

end MoonGen
