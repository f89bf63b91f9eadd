import Mathlib.Data.List.Chain
import MoonGen.Lte.Phase
import MoonGen.Lte.System

namespace MoonGen

def Settings.smallestTimer (cfg : Settings) : Nat :=
  min cfg.continuousReceptionInactivityTimer (min cfg.shortDRXInactivityTimer cfg.longDRXInactivityTimer) * cfg.tscHzMs

theorem Settings.smallestTimer_le (cfg : Settings) (d : Drx) : cfg.smallestTimer ≤ cfg.inactiveDRXCycleTime d := by
  cases d with
  | short => exact Nat.mul_le_mul_right _ (by omega)
  | long => exact Nat.mul_le_mul_right _ (by omega)

/-- The statements that read the clock, apart from the first one of the task. -/
def Pc.readsClock : Pc → Bool
  | .buildStart | .buildClock | .buildEnd | .spin | .sentActivity | .sentClock | .quietActivity | .quietClock
  | .sleepStart _ | .waitClock _ | .waitArrival _ | .waitDone _ | .onClock _ | .wakeActivity _ | .wakeClock _
  | .expireClock _ => true
  | _ => false

/-- Consecutive reads of the clock differ by less than the smallest timer. -/
def System.Steady (cfg : Settings) (s : System Unit) : Action Unit → Prop
  | .task i inp => (s.tasks i).pc.readsClock = true → inp.clock < (s.tasks i).tsc + cfg.smallestTimer
  | .receive _ _ => True

/-- The mode of the link, if exactly one flag is true. -/
def Ns.mode? (ns : Ns) : Option Mode :=
  match ns.rccIdle, ns.shortDRX, ns.longDRX, ns.continuousReception with
  | true, false, false, false => some .rccIdle
  | false, true, false, false => some .shortDRX
  | false, false, true, false => some .longDRX
  | false, false, false, true => some .continuousReception
  | _, _, _, _ => none

/-- The mode of the link stays or moves along one of the mode changes. -/
def Mode.Follows (before after : Mode) : Prop := before = after ∨ ∃ c : Change, c.source = before ∧ c.target = after

variable {ns : Ns}

theorem Ns.Only.mode?_eq {m : Mode} (only : ns.Only m) : ns.mode? = some m := by
  have idle := only .rccIdle
  have short := only .shortDRX
  have long := only .longDRX
  have continuous := only .continuousReception
  cases m <;> simp_all [Ns.get, Ns.mode?]

theorem Ns.mode?_eq_none (unset : ∀ k, ns.get k = false) : ns.mode? = none := by
  have idle := unset .rccIdle
  have short := unset .shortDRX
  have long := unset .longDRX
  have continuous := unset .continuousReception
  simp_all [Ns.get, Ns.mode?]

/-- In which mode a lone task can be at a program counter. Behind a wake-up
the block of the old mode is left through the test of its timer, which cannot
expire since the packet time was just stored. -/
def Task.Fits (t : Task) (cfg : Settings) (lastPacketTime : Nat) (m : Mode) : Prop :=
  match t.pc with
  | .startIdle | .set _ => False
  | .startShort | .startLong | .startContinuous | .startClock | .startPacketTime | .startFirst => m = .rccIdle
  | .clear c => m = c.source
  | .recv | .spin | .spinRunning | .send | .sentActivity | .sentClock | .sentStore | .quietActivity | .quietClock
  | .quietLoad => m = .continuousReception
  | .sleepStart n | .waitClock n | .waitCount n | .waitArrival n | .waitRunning n | .waitDone n
  | .onClock n | .onRunning n | .onCount n => m = n.mode
  | .waitFlag d | .onFlag d => m = d.mode
  | .wakeFirst | .wakeActivity _ | .wakeClock _ | .wakeStore _ => m = .continuousReception
  | .expireClock d => m = d.mode ∨ m = .continuousReception ∧ lastPacketTime = t.tsc
  | .expireLoad d => m = d.mode ∨ m = .continuousReception ∧ t.tsc < lastPacketTime + cfg.smallestTimer
  | _ => True

theorem Ns.Only.eq_of_get {k m : Mode} (only : ns.Only m) (active : ns.get k = true) : m = k :=
  ((only k).mp active).symm

variable {cfg : Settings}

theorem Task.Fits.next {t : Task} {link : Link} {inp : Input} {ring : PsRing Frame} {m : Mode}
    (fits : t.Fits cfg ns.lastPacketTime m) (only : ns.Only m) (calm : ∀ c, t.pc ≠ .clear c)
    (steady : t.pc.readsClock = true → inp.clock < t.tsc + cfg.smallestTimer) :
    (t.next cfg link inp ns ring).Fits cfg (t.store ns).lastPacketTime m := by
  unfold Task.next Task.store
  unfold Task.Fits at fits
  generalize pc : t.pc = p at fits steady ⊢
  cases p with
  | startIdle | set c => exact fits.elim
  | clear c => exact absurd pc (calm c)
  | startFirst | buildStart | buildStore | buildEnd | returned => simp [Task.Fits, pc]
  | head | firstLoad | buildClock | buildRunning | buildLoad => dsimp only; split <;> trivial
  | continuousLoad =>
    dsimp only
    split
    · exact only.eq_of_get ‹_›
    · trivial
  | sleepLoad n =>
    dsimp only
    split
    · exact only.eq_of_get ‹_›
    · rcases n with ⟨_ | _⟩ | _ <;> trivial
  | expireClock d =>
    have close := steady rfl
    rcases fits with asleep | ⟨awake, stored⟩
    · exact .inl asleep
    · exact .inr ⟨awake, stored ▸ close⟩
  | expireLoad d =>
    have timer := cfg.smallestTimer_le d
    dsimp only
    split
    · rcases fits with asleep | ⟨_, close⟩
      · exact asleep
      · omega
    · cases d <;> trivial
  | recv | spin => dsimp only; split <;> exact fits
  | spinRunning | quietActivity | quietLoad | onRunning n =>
    dsimp only
    split
    · exact fits
    · trivial
  | sleepStart n | waitDone n =>
    cases n <;> exact fits
  | waitFlag d | waitClock n | waitCount n => dsimp only; split <;> exact fits
  | waitRunning n =>
    dsimp only
    split
    · cases n <;> exact fits
    · trivial
  | onFlag d =>
    dsimp only
    split
    · exact fits
    · exact .inl fits
  | onClock n =>
    dsimp only
    split
    · exact fits
    · cases n with
      | drx d => exact .inl fits
      | idle => trivial
  | onCount n =>
    dsimp only
    split
    · exact fits
    · cases n <;> exact fits
  | wakeStore n =>
    cases n with
    | drx d => exact .inr ⟨fits, rfl⟩
    | idle => trivial
  | _ => exact fits

theorem Task.Fits.store_only {t : Task} {m : Mode} (fits : t.Fits cfg ns.lastPacketTime m)
    (only : ns.Only m) (calm : ∀ c, t.pc ≠ .clear c) : (t.store ns).Only m := by
  unfold Task.Fits at fits
  cases pc : t.pc with
  | startIdle | set c => simp [pc] at fits
  | clear c => exact absurd pc (calm c)
  | startShort | startLong | startContinuous =>
    simp only [pc] at fits
    simp only [Task.store, pc]
    exact only.clear_other (by simp [fits])
  | _ =>
    intro k
    rw [Task.store_get_of_none (by rw [pc]; rfl)]
    exact only k

/-- Where a lone task stands after a run that showed the logged modes. -/
inductive Standing (cfg : Settings) (t : Task) (ns : Ns) (log : List Mode) : Prop
  | fresh : t.pc = .startIdle → (∀ k, ns.get k = false) → log = [] → Standing cfg t ns log
  | change {c} : t.pc = .set c → (∀ k, ns.get k = false) → log.getLast? = some c.source → Standing cfg t ns log
  | settled {m} : ns.Only m → t.Fits cfg ns.lastPacketTime m → log.getLast? = some m → Standing cfg t ns log

variable {log : List Mode}

theorem isChain_follows_append {before after : Mode} (chain : log.IsChain Mode.Follows)
    (last : log.getLast? = some before) (follows : before.Follows after) : (log ++ [after]).IsChain Mode.Follows := by
  refine List.isChain_append.mpr ⟨chain, List.isChain_singleton _, fun a ends b starts => ?_⟩
  cases Option.some.inj (last.symm.trans ends)
  cases Option.some.inj starts
  exact follows

theorem Standing.step {link : Link} {t : Task} {inp : Input} {ring : PsRing Frame} (stands : Standing cfg t ns log)
    (chain : log.IsChain Mode.Follows)
    (steady : t.pc.readsClock = true → inp.clock < t.tsc + cfg.smallestTimer) :
    Standing cfg (t.next cfg link inp ns ring) (t.store ns) (log ++ (t.store ns).mode?.toList) ∧
      (log ++ (t.store ns).mode?.toList).IsChain Mode.Follows := by
  cases stands with
  | fresh pc unset empty =>
    have only : (t.store ns).Only .rccIdle := by simpa only [Task.store, pc] using Ns.only_set unset .rccIdle
    rw [only.mode?_eq, empty]
    exact ⟨.settled only (by simp [Task.next, pc, Task.Fits]) rfl, List.isChain_singleton _⟩
  | @change c pc unset last =>
    have only : (t.store ns).Only c.target := by simpa only [Task.store, pc] using Ns.only_set unset c.target
    have fits : (t.next cfg link inp ns ring).Fits cfg (t.store ns).lastPacketTime c.target := by
      simp only [Task.next, pc]
      rcases c with _ | ⟨_ | _⟩ | ⟨_ | _⟩ <;> trivial
    rw [only.mode?_eq]
    exact ⟨.settled only fits (by simp), isChain_follows_append chain last (.inr ⟨c, rfl, rfl⟩)⟩
  | @settled m only fits last =>
    by_cases clears : ∃ c, t.pc = .clear c
    · obtain ⟨c, pc⟩ := clears
      have source : m = c.source := by simpa only [Task.Fits, pc] using fits
      have unset : ∀ k, (t.store ns).get k = false := by
        simpa only [Task.store, pc, source] using Ns.Only.clear (source ▸ only)
      rw [Ns.mode?_eq_none unset, Option.toList_none, List.append_nil]
      exact ⟨.change (by simp [Task.next, pc]) unset (source ▸ last), chain⟩
    · have calm := not_exists.mp clears
      have stays := fits.store_only only calm
      rw [stays.mode?_eq]
      exact ⟨.settled stays (fits.next only calm steady) (by simp), isChain_follows_append chain last (.inl rfl)⟩

theorem Standing.stay {t : Task} (stands : Standing cfg t ns log) (chain : log.IsChain Mode.Follows) :
    Standing cfg t ns (log ++ ns.mode?.toList) ∧ (log ++ ns.mode?.toList).IsChain Mode.Follows := by
  cases stands with
  | fresh pc unset empty =>
    rw [Ns.mode?_eq_none unset, Option.toList_none, List.append_nil]
    exact ⟨.fresh pc unset empty, chain⟩
  | change pc unset last =>
    rw [Ns.mode?_eq_none unset, Option.toList_none, List.append_nil]
    exact ⟨.change pc unset last, chain⟩
  | settled only fits last =>
    rw [only.mode?_eq]
    exact ⟨.settled only fits (by simp), isChain_follows_append chain last (.inl rfl)⟩

/-- The mode that can be read from the namespace behind an action. -/
def System.shows (cfg : Settings) (link : Unit → Link) (s : System Unit) (a : Action Unit) : Option Mode :=
  (s.step cfg link a).ns.mode?

def System.Stands (cfg : Settings) (s : System Unit) (log : List Mode) : Prop :=
  Standing cfg (s.tasks ()) s.ns log ∧ log.IsChain Mode.Follows

theorem System.Stands.step {link : Unit → Link} {s : System Unit} {a : Action Unit}
    (stands : s.Stands cfg log) (steady : s.Steady cfg a) :
    (s.step cfg link a).Stands cfg (log ++ (s.shows cfg link a).toList) := by
  unfold System.Stands System.shows
  cases a with
  | task i inp =>
    rw [System.step_task_self]
    exact stands.1.step stands.2 steady
  | receive i bufs =>
    rw [System.step_receive_tasks, System.step_receive_ns]
    exact stands.1.stay stands.2

/-- With a single task and a steady clock exactly one mode is active at every
head of the loop, and the modes that can be read one after another stay or move
along the mode changes. -/
theorem lte_alone_modes {link : Unit → Link} {s : System Unit × List Mode}
    (reach : (((forwardFrom System.Initial cfg link).guarded (System.Steady cfg)).logged (System.shows cfg link)).Reach s) :
    ((s.1.tasks ()).pc = .head → ∃ m, s.1.ns.Only m ∧ s.2.getLast? = some m) ∧ s.2.IsChain Mode.Follows := by
  have holds : s.1.Stands cfg s.2 := by
    refine Machine.Reach.invariant (I := fun s => s.1.Stands cfg s.2) (fun s initial => ?_) (fun s a holds able => ?_) reach
    · obtain ⟨⟨empty, tasks⟩, log⟩ := initial
      rw [log]
      exact ⟨.fresh (by rw [tasks]; rfl) (by simp [empty]) rfl, .nil⟩
    · exact holds.step able.2
  refine ⟨fun head => ?_, holds.2⟩
  cases holds.1 with
  | fresh pc => simp [head] at pc
  | change pc => simp [head] at pc
  | @settled m only _ last => exact ⟨m, only, last⟩

instance (cfg : Settings) (s : System Unit) : (a : Action Unit) → Decidable (s.Steady cfg a)
  | .task i inp => inferInstanceAs (Decidable
      ((s.tasks i).pc.readsClock = true → inp.clock < (s.tasks i).tsc + cfg.smallestTimer))
  | .receive _ _ => inferInstanceAs (Decidable True)

theorem lte_alone_modes_wake : ∃ s : System Unit × List Mode,
    (((forwardFrom System.Initial (.default 1) fun _ => .default).guarded (System.Steady (.default 1))).logged
      (System.shows (.default 1) fun _ => .default)).Reach s ∧ (s.1.tasks ()).pc = .head ∧
      (∃ m, s.1.ns.Only m ∧ s.2.getLast? = some m) ∧ s.2.IsChain Mode.Follows := by
  have run : (((forwardFrom System.Initial (.default 1) fun _ => .default).guarded (System.Steady (.default 1))).logged
      (System.shows (.default 1) fun _ => .default)).leadsTo (fun s => (s.1.tasks ()).pc = .head)
      (System.fresh fun _ => true, [])
      (.receive true [⟨1, 60, 0⟩] :: schedule (List.replicate 14 ((), 0) ++ List.replicate 10 ((), 60))) = true := by
    decide +kernel
  obtain ⟨s, reach, head⟩ := Machine.reach_of_leadsTo run (.start ⟨System.fresh_initial _, rfl⟩)
  have modes := lte_alone_modes reach
  exact ⟨s, reach, of_decide_eq_true head, modes.1 (of_decide_eq_true head), modes.2⟩

end MoonGen
