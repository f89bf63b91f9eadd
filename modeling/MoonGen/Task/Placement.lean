import Mathlib.Data.List.Dedup
import Mathlib.Data.List.Induction

namespace MoonGen

open List

/-- A device with its port. `dpdk_get_socket` may find no PCI device for it, and the node of
that may be unknown. -/
structure Device where
  id : Nat
  numaNode : Option Int
  deriving DecidableEq

def Device.getSocket (dev : Device) : UInt8 :=
  match dev.numaNode with
  | none => 0
  | some node => if node = -1 then 0 else UInt8.ofInt node

/-- An argument of a task. The fields of a table are listed in the order of `pairs`; a queue
is a table with its device among them. -/
inductive TaskArg where
  | device (dev : Device)
  | table (fields : List TaskArg)
  | other

mutual

def findDevices : TaskArg → List Device
  | .device dev => [dev]
  | .table fields => findAllDevices fields
  | .other => []

def findAllDevices : List TaskArg → List Device
  | [] => []
  | arg :: args => findDevices arg ++ findAllDevices args

end

/-- A socket and how many devices it has. -/
structure Vote where
  socket : UInt8
  count : Nat
  deriving DecidableEq

/-- What `pairs` and `table.sort` make of a table of counts: every entry once, in an
order in which none is larger than one before it. Equal counts come in any order. -/
structure VoteOrder where
  sorted : (UInt8 → Option Nat) → List Vote
  mem : ∀ sockets v, v ∈ sorted sockets ↔ sockets v.socket = some v.count
  order : ∀ sockets, (sorted sockets).Pairwise fun v w => ¬w.count > v.count

def countSocket (sockets : UInt8 → Option Nat) (dev : Device) : UInt8 → Option Nat :=
  Function.update sockets dev.getSocket (some ((sockets dev.getSocket).getD 0 + 1))

def getBestSocket (o : VoteOrder) (devices : List Device) : Int :=
  match o.sorted (devices.foldl countSocket fun _ => none) with
  | [] => -1
  | best :: _ => best.socket.toNat

inductive CoreState where
  | wait
  | running
  | finished
  deriving DecidableEq

/-- The configured cores, the first of which is the master, and what DPDK knows about
them. -/
structure Cores where
  cores : List Nat
  state : Nat → CoreState
  socket : Nat → UInt8

namespace Cores

def Free (c : Cores) (core : Nat) : Prop := c.state core = .finished ∨ c.state core = .wait

instance (c : Cores) (core : Nat) : Decidable (c.Free core) :=
  inferInstanceAs (Decidable (c.state core = .finished ∨ c.state core = .wait))

def workers (c : Cores) : List Nat := c.cores.tail

/-- The first free core on a socket, or on any one for socket -1. A call without an
argument passes `nil`, which equals no number. -/
def getCoreOnSocket (c : Cores) (socket : Option Int) : Option Nat :=
  c.workers.find? fun core => c.Free core ∧ (socket = some (-1) ∨ socket = some ((c.socket core).toNat : Int))

/-- The cores after the launch of a task on one of them. DPDK puts a finished core
back to the waiting state. -/
def startTaskOnCore (c : Cores) (core : Nat) : Except String (Nat × Cores) :=
  let status := if c.state core = .finished then .wait else c.state core
  if status ≠ .wait then .error "requested core is already in use"
  else .ok (core, { c with state := Function.update c.state core .running })

def startTask (o : VoteOrder) (c : Cores) (args : List TaskArg) : Except String (Nat × Cores) :=
  let socket := getBestSocket o (findAllDevices args)
  let core := (c.getCoreOnSocket (some socket)).or (c.getCoreOnSocket none)
  match core with
  | some core => c.startTaskOnCore core
  | none => .error "Not enough cores to start this task"

/-- No socket comes up more often among the devices that were found. -/
def NamedMost (found : List Device) (socket : UInt8) : Prop :=
  socket ∈ found.map Device.getSocket ∧
    ∀ other, (found.map Device.getSocket).count other ≤ (found.map Device.getSocket).count socket

/-- No socket has more of the devices. -/
def OwnsMost (found : List Device) (socket : UInt8) : Prop := NamedMost found.dedup socket

/-- The task runs on a free worker, which is on a socket with most of the devices if
such a socket has a free worker. Without a free worker, and only then, there is an error. -/
def Placed (c : Cores) (devices : List Device) : Except String (Nat × Cores) → Prop
  | .ok (core, after) =>
    core ∈ c.workers ∧ c.Free core ∧ after = { c with state := Function.update c.state core .running } ∧
      ((∃ w ∈ c.workers, c.Free w ∧ OwnsMost devices (c.socket w)) → OwnsMost devices (c.socket core))
  | .error _ => ∀ w ∈ c.workers, ¬c.Free w

end Cores

theorem countSockets (devices : List Device) (socket : UInt8) :
    devices.foldl countSocket (fun _ => none) socket =
      if socket ∈ devices.map Device.getSocket then some ((devices.map Device.getSocket).count socket) else none := by
  induction devices using List.reverseRecOn with
  | nil => rfl
  | append_singleton devices dev ih =>
    rw [foldl_append, foldl_cons, foldl_nil, countSocket, map_append, count_append]
    by_cases same : socket = dev.getSocket
    · subst same
      rw [Function.update_self, ih]
      by_cases member : dev.getSocket ∈ devices.map Device.getSocket
      · simp [member]
      · simp [member, count_eq_zero_of_not_mem member]
    · rw [Function.update_of_ne same, ih]
      simp [same, Ne.symm same]

/-- There is a vote for each socket that comes up. -/
theorem getBestSocket_votes (o : VoteOrder) (devices : List Device) (v : Vote) :
    v ∈ o.sorted (devices.foldl countSocket fun _ => none) ↔
      v.socket ∈ devices.map Device.getSocket ∧ (devices.map Device.getSocket).count v.socket = v.count := by
  rw [o.mem, countSockets]
  split <;> simp_all

/-- The best socket comes up most often. Without devices it is -1. -/
theorem getBestSocket_eq (o : VoteOrder) (devices : List Device) :
    (devices = [] ∧ getBestSocket o devices = -1) ∨
      devices ≠ [] ∧ ∃ socket, Cores.NamedMost devices socket ∧ getBestSocket o devices = socket.toNat := by
  have votes := getBestSocket_votes o devices
  have elected {socket : UInt8} (member : socket ∈ devices.map Device.getSocket) :
      ⟨socket, (devices.map Device.getSocket).count socket⟩ ∈ o.sorted (devices.foldl countSocket fun _ => none) :=
    (votes _).mpr ⟨member, rfl⟩
  have order := o.order (devices.foldl countSocket fun _ => none)
  unfold getBestSocket
  cases sorted : o.sorted (devices.foldl countSocket fun _ => none) with
  | nil =>
    refine .inl ⟨eq_nil_iff_forall_not_mem.mpr fun dev member => ?_, rfl⟩
    have vote := elected (mem_map_of_mem member)
    simp [sorted] at vote
  | cons best rest =>
    rw [sorted] at votes order elected
    obtain ⟨inside, count⟩ := (votes best).mp (mem_cons_self ..)
    refine .inr ⟨fun empty => by simp [empty] at inside, best.socket, ⟨inside, fun other => ?_⟩, rfl⟩
    by_cases member : other ∈ devices.map Device.getSocket
    · rw [count]
      rcases mem_cons.mp (elected member) with same | later
      · exact Nat.le_of_eq (congrArg Vote.count same)
      · exact Nat.not_lt.mp ((pairwise_cons.mp order).1 _ later)
    · rw [count_eq_zero_of_not_mem member]
      exact Nat.zero_le _

namespace Cores

variable {c : Cores}

theorem getCoreOnSocket_none : c.getCoreOnSocket none = none := by
  simp [getCoreOnSocket]

theorem startTaskOnCore_of_free {core : Nat} (free : c.Free core) :
    c.startTaskOnCore core = .ok (core, { c with state := Function.update c.state core .running }) := by
  rcases free with state | state <;> simp [startTaskOnCore, state]

/-- The task runs on the first free core that its socket allows. -/
theorem startTask_eq (o : VoteOrder) (args : List TaskArg) : c.startTask o args =
    match c.getCoreOnSocket (some (getBestSocket o (findAllDevices args))) with
    | some core => .ok (core, { c with state := Function.update c.state core .running })
    | none => .error "Not enough cores to start this task" := by
  simp only [startTask, getCoreOnSocket_none, Option.or_none]
  split
  · rename_i core found
    have free := find?_some found
    simp only [decide_eq_true_eq] at free
    exact startTaskOnCore_of_free free.1
  · rfl

/-- The votes for all sockets in the order of their numbers, sorted by their counts, and a
preferred socket first among equal ones. -/
def sortVotes (preferred : UInt8) (sockets : UInt8 → Option Nat) : List Vote :=
  ((List.range 256).filterMap fun n => (sockets (UInt8.ofNat n)).map (Vote.mk (UInt8.ofNat n))).mergeSort
    fun v w => w.count < v.count ∨ w.count = v.count ∧ (v.socket = preferred ∨ w.socket ≠ preferred)

theorem sortVotes_order (preferred : UInt8) (sockets : UInt8 → Option Nat) :
    (sortVotes preferred sockets).Pairwise fun v w =>
      w.count < v.count ∨ w.count = v.count ∧ (v.socket = preferred ∨ w.socket ≠ preferred) := by
  refine (pairwise_mergeSort (fun a b c first second => ?_) (fun a b => ?_) _).imp fun order => of_decide_eq_true order
  · simp only [decide_eq_true_eq] at *
    grind
  · simp only [Bool.or_eq_true, decide_eq_true_eq]
    grind

def preferring (preferred : UInt8) : VoteOrder where
  sorted := sortVotes preferred
  mem sockets v := by
    simp only [sortVotes, mem_mergeSort, mem_filterMap, mem_range, Option.map_eq_some_iff]
    refine ⟨fun ⟨n, _, count, entry, vote⟩ => by rwa [← vote], fun entry => ?_⟩
    refine ⟨v.socket.toNat, v.socket.toNat_lt, v.count, ?_, ?_⟩ <;> rw [UInt8.ofNat_toNat]
    exact entry
  order sockets := (sortVotes_order preferred sockets).imp fun {v w} order => by omega

/-- Each of the sockets that come up most often is the best one in some order. -/
theorem getBestSocket_preferring {devices : List Device} {socket : UInt8} (most : NamedMost devices socket) :
    getBestSocket (preferring socket) devices = socket.toNat := by
  have votes (v : Vote) : v ∈ sortVotes socket (devices.foldl countSocket fun _ => none) ↔
      v.socket ∈ devices.map Device.getSocket ∧ (devices.map Device.getSocket).count v.socket = v.count := by
    rw [← (getBestSocket_votes (preferring socket) devices v)]
    rfl
  have order := sortVotes_order socket (devices.foldl countSocket fun _ => none)
  have vote := (votes ⟨socket, (devices.map Device.getSocket).count socket⟩).mpr ⟨most.1, rfl⟩
  have sorted : (preferring socket).sorted = sortVotes socket := rfl
  rw [getBestSocket, sorted]
  cases list : sortVotes socket (devices.foldl countSocket fun _ => none) with
  | nil => simp [list] at vote
  | cons best rest =>
    rw [list] at vote order votes
    rcases mem_cons.mp vote with same | later
    · rw [← same]
    · obtain ⟨_, count⟩ := (votes best).mp (mem_cons_self ..)
      have less := most.2 best.socket
      rcases (pairwise_cons.mp order).1 _ later with more | ⟨_, rfl | other⟩
      · dsimp only at more
        omega
      · rfl
      · exact absurd rfl other

theorem placed_of_best {c : Cores} {args : List TaskArg} {o : VoteOrder} {socket : UInt8}
    (best : getBestSocket o (findAllDevices args) = socket.toNat) :
    c.Placed (findAllDevices args) (c.startTask o args) ↔
      (∀ w ∈ c.workers, ¬c.Free w) ∨ (∃ w ∈ c.workers, c.Free w ∧ c.socket w = socket) ∧
        (OwnsMost (findAllDevices args) socket ∨
          ∀ w ∈ c.workers, c.Free w → ¬OwnsMost (findAllDevices args) (c.socket w)) := by
  rw [startTask_eq, best]
  have test (core : Nat) : (some (socket.toNat : Int) = some (-1) ∨
      some (socket.toNat : Int) = some ((c.socket core).toNat : Int)) ↔ c.socket core = socket := by
    rw [← UInt8.toNat_inj, Option.some.injEq, Option.some.injEq]
    omega
  cases found : c.getCoreOnSocket (some socket.toNat) with
  | none =>
    have busy := find?_eq_none.mp found
    simp only [decide_eq_true_eq, test] at busy
    refine ⟨.inl, fun placed => ?_⟩
    rcases placed with refused | ⟨⟨w, worker, free, here⟩, _⟩
    · exact refused
    · exact absurd ⟨free, here⟩ (busy w worker)
  | some core =>
    have worker := mem_of_find?_eq_some found
    obtain ⟨free, here⟩ : c.Free core ∧ c.socket core = socket := by
      have passed := find?_some found
      simpa only [decide_eq_true_eq, test] using passed
    constructor
    · rintro ⟨_, _, _, most⟩
      refine .inr ⟨⟨core, worker, free, here⟩, ?_⟩
      by_cases elsewhere : ∃ w ∈ c.workers, c.Free w ∧ OwnsMost (findAllDevices args) (c.socket w)
      · exact .inl (here ▸ most elsewhere)
      · exact .inr fun w member idle owns => elsewhere ⟨w, member, idle, owns⟩
    · rintro (refused | ⟨_, owns | nowhere⟩)
      · exact absurd free (refused core worker)
      · exact ⟨worker, free, rfl, fun _ => here ▸ owns⟩
      · exact ⟨worker, free, rfl, fun ⟨w, member, idle, owns⟩ => absurd owns (nowhere w member idle)⟩

/-- The placement is right in every order exactly when no worker is free, or each socket that
comes up most often has a free worker and has most of the devices itself, unless all sockets
with most of the devices are busy. -/
theorem startTask_placed_iff (c : Cores) (args : List TaskArg) :
    (∀ o, c.Placed (findAllDevices args) (c.startTask o args)) ↔
      (∀ w ∈ c.workers, ¬c.Free w) ∨
        ∀ socket, NamedMost (findAllDevices args) socket → (∃ w ∈ c.workers, c.Free w ∧ c.socket w = socket) ∧
          (OwnsMost (findAllDevices args) socket ∨
            ∀ w ∈ c.workers, c.Free w → ¬OwnsMost (findAllDevices args) (c.socket w)) := by
  constructor
  · intro placed
    by_cases busy : ∀ w ∈ c.workers, ¬c.Free w
    · exact .inl busy
    · refine .inr fun socket most => ?_
      exact ((placed_of_best (getBestSocket_preferring most)).mp (placed _)).resolve_left busy
  · intro right o
    rcases getBestSocket_eq o (findAllDevices args) with ⟨empty, any⟩ | ⟨_, socket, most, best⟩
    · have unowned (socket : UInt8) : ¬OwnsMost (findAllDevices args) socket := by
        simp [OwnsMost, NamedMost, empty]
      rw [startTask_eq, any]
      cases found : c.getCoreOnSocket (some (-1)) with
      | none =>
        have busy := find?_eq_none.mp found
        simp only [decide_eq_true_eq, true_or, and_true] at busy
        exact busy
      | some core =>
        have passed := find?_some found
        simp only [decide_eq_true_eq] at passed
        exact ⟨mem_of_find?_eq_some found, passed.1, rfl, fun ⟨w, _, _, owns⟩ => absurd owns (unowned _)⟩
    · exact (placed_of_best best).mpr (right.imp_right fun each => each socket most)

/-- Core 1 on socket 0 is busy, core 2 on socket 1 is free. -/
def busySocket : Cores where
  cores := [0, 1, 2]
  state core := if core = 2 then .wait else .running
  socket core := if core = 2 then 1 else 0

/-- Cores 1 on socket 0 and 2 on socket 1 are free. -/
def freeSockets : Cores where
  cores := [0, 1, 2]
  state core := if core = 0 then .running else .wait
  socket core := if core = 2 then 1 else 0

/-- Three queues of a device on socket 0, and two devices on socket 1. -/
def threeQueues : List TaskArg :=
  List.replicate 3 (.table [.other, .device ⟨0, some 0⟩]) ++ [.device ⟨1, some 1⟩, .device ⟨2, some 1⟩]

/-- A socket comes up most often if no other one of the list comes up more often. -/
theorem namedMost_of_list {found : List Device} {socket : UInt8} {sockets : List UInt8}
    (here : found.map Device.getSocket = sockets) (member : socket ∈ sockets)
    (most : sockets.all fun other => sockets.count other ≤ sockets.count socket) : NamedMost found socket := by
  rw [NamedMost, here]
  refine ⟨member, fun other => ?_⟩
  by_cases inside : other ∈ sockets
  · exact of_decide_eq_true (all_eq_true.mp most other inside)
  · rw [count_eq_zero_of_not_mem inside]
    exact Nat.zero_le _

/-- A task for a device on socket 0 is refused although core 2 is free, and a task for three
queues of one device on socket 0 and two devices on socket 1 is started on socket 0. -/
theorem startTask_refused :
    busySocket.startTask (preferring 0) [.device ⟨0, some 0⟩] = .error "Not enough cores to start this task" ∧
      2 ∈ busySocket.workers ∧ busySocket.Free 2 ∧
    (freeSockets.startTask (preferring 0) threeQueues).map (fun run => freeSockets.socket run.1) = .ok 0 ∧
      OwnsMost (findAllDevices threeQueues) 1 ∧ ¬OwnsMost (findAllDevices threeQueues) 0 ∧
      2 ∈ freeSockets.workers ∧ freeSockets.Free 2 := by
  refine ⟨?_, by decide, by decide, ?_, ?_, fun most => absurd (most.2 1) (by decide), by decide, by decide⟩
  · have most : NamedMost (findAllDevices [.device ⟨0, some 0⟩]) 0 := namedMost_of_list rfl (by decide) (by decide)
    have busy : busySocket.getCoreOnSocket (some (0 : UInt8).toNat) = none := by decide
    rw [startTask_eq, getBestSocket_preferring most, busy]
  · have most : NamedMost (findAllDevices threeQueues) 0 := namedMost_of_list rfl (by decide) (by decide)
    have first : freeSockets.getCoreOnSocket (some (0 : UInt8).toNat) = some 1 := by decide
    rw [startTask_eq, getBestSocket_preferring most, first]
    rfl
  · exact namedMost_of_list rfl (by decide) (by decide)

end Cores
end MoonGen
