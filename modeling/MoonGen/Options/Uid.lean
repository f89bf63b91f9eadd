import Mathlib.Data.List.Nodup
import Mathlib.Data.List.Perm.Subperm
import MoonGen.Lib.Lua

namespace MoonGen

open List

/-- The value of the option `uid`. -/
inductive UidRequest
  | nil
  | number (n : Lua.Number)
  | string (s : String)
  | other (type : String)

/-- The uids in use, the uids of the flows, and what the error handler has got. -/
structure UidState (F : Type) where
  uids : List Lua.Number
  property : F → Option Lua.Number
  log : List String

/-- The loop of `next_uid`. -/
def nextUidFrom (uids : List Lua.Number) : Nat → Nat → Nat
  | 0, i => i
  | fuel + 1, i => if .ofNat i ∈ uids then nextUidFrom uids fuel (i + 1) else i

def nextUid (uids : List Lua.Number) : Nat := nextUidFrom uids (uids.length + 1) 1

/-- The loop passes used numbers only, and stops at a used one only without fuel. -/
theorem nextUidFrom_spec (uids : List Lua.Number) (fuel i : Nat) :
    i ≤ nextUidFrom uids fuel i ∧ (∀ k, i ≤ k → k < nextUidFrom uids fuel i → .ofNat k ∈ uids) ∧
      (.ofNat (nextUidFrom uids fuel i) ∈ uids → nextUidFrom uids fuel i = i + fuel) := by
  induction fuel generalizing i with
  | zero =>
    refine ⟨Nat.le_refl i, fun k above below => ?_, fun _ => rfl⟩
    rw [nextUidFrom] at below
    omega
  | succ fuel ih =>
    rw [nextUidFrom]
    split
    · rename_i used
      obtain ⟨later, passed, full⟩ := ih (i + 1)
      refine ⟨by omega, fun k above below => ?_, fun member => by rw [full member]; omega⟩
      by_cases first : k = i
      · rwa [first]
      · exact passed k (by omega) below
    · rename_i unused
      exact ⟨Nat.le_refl i, fun k above below => absurd below (by omega), fun member => absurd member unused⟩

theorem nextUid_pos (uids : List Lua.Number) : 0 < nextUid uids := (nextUidFrom_spec uids _ 1).1

theorem nextUid_le {uids : List Lua.Number} {k : Nat} (positive : 0 < k) (unused : .ofNat k ∉ uids) :
    nextUid uids ≤ k := by
  by_contra above
  exact unused ((nextUidFrom_spec uids _ 1).2.1 k positive (Nat.not_le.mp above))

/-- The fuel suffices, since the uids cannot hold more numbers than they are. -/
theorem nextUid_unused (uids : List Lua.Number) : .ofNat (nextUid uids) ∉ uids := by
  intro used
  obtain ⟨_, passed, full⟩ := nextUidFrom_spec uids (uids.length + 1) 1
  have last : nextUid uids = 1 + (uids.length + 1) := full used
  have each : (List.range' 1 (uids.length + 1)).map .ofNat ⊆ uids := by
    intro n member
    obtain ⟨k, inside, rfl⟩ := mem_map.mp member
    rw [mem_range'_1] at inside
    exact passed k inside.1 (by rw [← nextUid, last]; exact inside.2)
  have distinct : ((List.range' 1 (uids.length + 1)).map Lua.Number.ofNat).Nodup :=
    List.Nodup.map Lua.Number.ofNat_injective nodup_range'
  have bound := (subperm_of_subset distinct each).length_le
  rw [length_map, length_range'] at bound
  omega

section
variable (tonumber : String → Option Lua.Number)

/-- The number that a request stands for, with the messages for one that has none. -/
def UidRequest.number? : UidRequest → Option Lua.Number × List String
  | nil => (none, [])
  | number n => (some n, [])
  | string s =>
    match tonumber s with
    | some n => (some n, [])
    | none => (none, ["Invalid string. Needs to be convertible to a number."])
  | other type => (none, ["Invalid argument. String or number expected, got " ++ type ++ "."])

variable {F : Type}

/-- A number that a flow may ask for. -/
def UidFree (s : UidState F) (n : Lua.Number) : Prop := (∃ k, 0 < k ∧ n = .ofNat k) ∧ n ∉ s.uids

theorem UidFree.positive {s : UidState F} {uid : Lua.Number} (free : UidFree s uid) : uid.positive = true := by
  obtain ⟨⟨k, positive, rfl⟩, _⟩ := free
  exact Lua.Number.positive_ofNat.mpr positive

theorem nextUid_free (s : UidState F) : UidFree s (.ofNat (nextUid s.uids)) :=
  ⟨⟨_, nextUid_pos s.uids, rfl⟩, nextUid_unused s.uids⟩

/-- A flow gets its uid. -/
def UidState.assign [DecidableEq F] (s : UidState F) (flow : F) (uid : Lua.Number) (messages : List String) :
    UidState F where
  uids := uid :: s.uids
  property other := if other = flow then some uid else s.property other
  log := s.log ++ messages

/-- `option.parse`. The error is one that Lua raises. -/
def parseUid [DecidableEq F] (s : UidState F) (flow : F) (request : UidRequest) :
    Except String (Lua.Number × UidState F) :=
  match s.property flow with
  | some uid => .ok (uid, s)
  | none =>
    match request.number? tonumber with
    | (none, messages) =>
      let uid := .ofNat (nextUid s.uids)
      .ok (uid, s.assign flow uid messages)
    | (some n, messages) =>
      if n.positive && n ∉ s.uids then .ok (n, s.assign flow n messages)
      else .error "Invalid value. Needs to be a unique positive integer."

/-- A flow gets a uid of its own: the one it has, the one it asks for if that is free, and
else the smallest free one, with a message if it did ask. -/
structure UidAssigned (s : UidState F) (flow : F) (request : UidRequest) (uid : Lua.Number) (s' : UidState F) :
    Prop where
  kept : ∀ old, s.property flow = some old → uid = old ∧ s' = s
  property : s'.property flow = some uid
  positive : ∃ k, 0 < k ∧ uid = .ofNat k
  other : ∀ other, other ≠ flow → s'.property other = s.property other ∧ s.property other ≠ some uid
  honoured : s.property flow = none → ∀ n, (request.number? tonumber).1 = some n → UidFree s n →
    uid = n ∧ s'.log = s.log
  replaced : s.property flow = none → (∀ n, (request.number? tonumber).1 = some n → ¬ UidFree s n) →
    uid ∉ s.uids ∧ (∀ k, 0 < k → .ofNat k ∉ s.uids → ∃ m ≤ k, uid = .ofNat m) ∧
      (request ≠ .nil → ∃ message, s'.log = s.log ++ [message])

/-- The flow has a uid, or what it asks for is no number or one that is free. -/
def UidAcceptable (s : UidState F) (flow : F) (request : UidRequest) : Prop :=
  s.property flow = none → ∀ n, (request.number? tonumber).1 = some n → UidFree s n

/-- The flows have uids that are positive integers, in use, and different. -/
structure UidState.Valid (s : UidState F) : Prop where
  positive : ∀ flow uid, s.property flow = some uid → ∃ k, 0 < k ∧ uid = .ofNat k
  used : ∀ flow uid, s.property flow = some uid → uid ∈ s.uids
  distinct : ∀ flow other uid, s.property flow = some uid → s.property other = some uid → flow = other

/-- The calls of a run, all acceptable. -/
inductive UidRun [DecidableEq F] : UidState F → Prop
  | start : UidRun { uids := [], property := fun _ => none, log := [] }
  | next {s s' : UidState F} {uid : Lua.Number} (flow : F) (request : UidRequest) :
      UidRun s → UidAcceptable tonumber s flow request → parseUid tonumber s flow request = .ok (uid, s') → UidRun s'

variable {tonumber} {s s' : UidState F} {flow : F} {request : UidRequest} {uid : Lua.Number}

theorem uidAssigned_kept (valid : s.Valid) (held : s.property flow = some uid) :
    UidAssigned tonumber s flow request uid s where
  kept old same := ⟨Option.some.inj (held.symm.trans same), rfl⟩
  property := held
  positive := valid.positive flow uid held
  other other differs := ⟨rfl, fun same => differs (valid.distinct other flow uid same held)⟩
  honoured absent := by rw [held] at absent; cases absent
  replaced absent := by rw [held] at absent; cases absent

variable [DecidableEq F]

theorem parseUid_ok (step : parseUid tonumber s flow request = .ok (uid, s')) :
    (s.property flow = some uid ∧ s' = s) ∨
    (s.property flow = none ∧ (request.number? tonumber).1 = none ∧ uid = .ofNat (nextUid s.uids) ∧
      s' = s.assign flow uid (request.number? tonumber).2) ∨
    (s.property flow = none ∧ (request.number? tonumber).1 = some uid ∧ uid.positive = true ∧ uid ∉ s.uids ∧
      s' = s.assign flow uid (request.number? tonumber).2) := by
  rw [parseUid] at step
  split at step
  · rename_i old held
    obtain ⟨rfl, rfl⟩ := Prod.mk.inj (Except.ok.inj step)
    exact .inl ⟨held, rfl⟩
  · rename_i absent
    split at step
    · rename_i messages asked
      obtain ⟨rfl, rfl⟩ := Prod.mk.inj (Except.ok.inj step)
      rw [asked]
      exact .inr (.inl ⟨absent, rfl, rfl, rfl⟩)
    · rename_i n messages asked
      split at step
      · rename_i free
        obtain ⟨rfl, rfl⟩ := Prod.mk.inj (Except.ok.inj step)
        rw [Bool.and_eq_true, decide_eq_true_eq] at free
        rw [asked]
        exact .inr (.inr ⟨absent, rfl, free.1, free.2, rfl⟩)
      · cases step

theorem UidState.assign_property (s : UidState F) (flow other : F) (uid : Lua.Number) (messages : List String) :
    (s.assign flow uid messages).property other = if other = flow then some uid else s.property other := rfl

theorem UidState.Valid.assign (valid : s.Valid) (free : UidFree s uid) (flow : F) (messages : List String) :
    (s.assign flow uid messages).Valid := by
  have mine (other : F) (n : Lua.Number) (held : (s.assign flow uid messages).property other = some n) :
      other = flow ∧ n = uid ∨ other ≠ flow ∧ s.property other = some n := by
    rw [assign_property] at held
    split at held
    · rename_i same
      exact .inl ⟨same, (Option.some.inj held).symm⟩
    · rename_i differs
      exact .inr ⟨differs, held⟩
  constructor
  · intro other n held
    rcases mine other n held with ⟨_, rfl⟩ | ⟨_, old⟩
    · exact free.1
    · exact valid.positive other n old
  · intro other n held
    rcases mine other n held with ⟨_, rfl⟩ | ⟨_, old⟩
    · exact mem_cons_self
    · exact mem_cons_of_mem _ (valid.used other n old)
  · intro first second n held held'
    rcases mine first n held with ⟨same, rfl⟩ | ⟨_, old⟩ <;> rcases mine second _ held' with ⟨same', new⟩ | ⟨_, old'⟩
    · rw [same, same']
    · exact absurd (valid.used _ _ old') free.2
    · exact absurd (new ▸ valid.used _ _ old) free.2
    · exact valid.distinct _ _ _ old old'

theorem UidRun.valid (run : UidRun tonumber s) : s.Valid := by
  induction run with
  | start => exact ⟨nofun, nofun, nofun⟩
  | next flow request _ acceptable step ih =>
    rcases parseUid_ok step with ⟨_, rfl⟩ | ⟨_, _, rfl, rfl⟩ | ⟨absent, asked, _, _, rfl⟩
    · exact ih
    · exact ih.assign (nextUid_free _) _ _
    · exact ih.assign (acceptable absent _ asked) _ _

theorem parseUid_next (absent : s.property flow = none) (asked : (request.number? tonumber).1 = none) :
    parseUid tonumber s flow request = .ok (.ofNat (nextUid s.uids),
      s.assign flow (.ofNat (nextUid s.uids)) (request.number? tonumber).2) := by
  have pair : request.number? tonumber = (none, (request.number? tonumber).2) := Prod.ext asked rfl
  rw [parseUid, absent, pair]

theorem parseUid_honoured (absent : s.property flow = none) (asked : (request.number? tonumber).1 = some uid)
    (positive : uid.positive = true) (unused : uid ∉ s.uids) :
    parseUid tonumber s flow request = .ok (uid, s.assign flow uid (request.number? tonumber).2) := by
  have pair : request.number? tonumber = (some uid, (request.number? tonumber).2) := Prod.ext asked rfl
  rw [parseUid, absent, pair]
  simp only [positive, unused, not_false_eq_true, decide_true, Bool.and_self, ↓reduceIte]

/-- A request has a number, or a message, or is none at all. -/
theorem number?_messages (tonumber : String → Option Lua.Number) (request : UidRequest) :
    (∃ n, request.number? tonumber = (some n, [])) ∨ (∃ message, request.number? tonumber = (none, [message])) ∨
      request = .nil := by
  cases request with
  | nil => exact .inr (.inr rfl)
  | number n => exact .inl ⟨n, rfl⟩
  | string text =>
    rw [UidRequest.number?]
    cases tonumber text with
    | some n => exact .inl ⟨n, rfl⟩
    | none => exact .inr (.inl ⟨_, rfl⟩)
  | other type => exact .inr (.inl ⟨_, rfl⟩)

/-- The assignment of a free uid in a valid state. -/
theorem UidState.Valid.others (valid : s.Valid) (free : UidFree s uid) (flow : F) (messages : List String) (other : F)
    (differs : other ≠ flow) :
    (s.assign flow uid messages).property other = s.property other ∧ s.property other ≠ some uid :=
  ⟨if_neg differs, fun held => free.2 (valid.used other uid held)⟩

theorem uidAssigned_next (valid : s.Valid) (absent : s.property flow = none)
    (asked : (request.number? tonumber).1 = none) :
    UidAssigned tonumber s flow request (.ofNat (nextUid s.uids))
      (s.assign flow (.ofNat (nextUid s.uids)) (request.number? tonumber).2) where
  kept old same := by rw [absent] at same; cases same
  property := if_pos rfl
  positive := (nextUid_free s).1
  other := valid.others (nextUid_free s) flow _
  honoured _ n named := by rw [asked] at named; cases named
  replaced _ _ := by
    refine ⟨nextUid_unused s.uids, fun k positive unused => ⟨_, nextUid_le positive unused, rfl⟩, fun requested => ?_⟩
    rcases number?_messages tonumber request with ⟨n, known⟩ | ⟨message, known⟩ | unasked
    · rw [known] at asked
      cases asked
    · exact ⟨message, by rw [known]; rfl⟩
    · exact absurd unasked requested

theorem uidAssigned_honoured (valid : s.Valid) (absent : s.property flow = none)
    (asked : (request.number? tonumber).1 = some uid) (free : UidFree s uid) :
    UidAssigned tonumber s flow request uid (s.assign flow uid (request.number? tonumber).2) where
  kept old same := by rw [absent] at same; cases same
  property := if_pos rfl
  positive := free.1
  other := valid.others free flow _
  honoured _ n named _ := by
    rcases number?_messages tonumber request with ⟨m, known⟩ | ⟨message, known⟩ | rfl
    · rw [known] at asked named
      rw [known]
      exact ⟨Option.some.inj (asked.symm.trans named), append_nil s.log⟩
    · rw [known] at asked
      cases asked
    · cases asked
  replaced _ taken := absurd free (taken uid asked)

/-- After acceptable calls the flows have uids of their own. The next call keeps to the
rules exactly when it is acceptable, since Lua's own `assert` raises for a number that is
taken or not positive, and other numbers need not be integers. -/
theorem uid_assignment_iff (tonumber : String → Option Lua.Number) (s : UidState F) (run : UidRun tonumber s) :
    s.Valid ∧ ∀ flow request,
      (∃ uid s', parseUid tonumber s flow request = .ok (uid, s') ∧ UidAssigned tonumber s flow request uid s') ↔
        UidAcceptable tonumber s flow request := by
  have valid := run.valid
  refine ⟨valid, fun flow request => ⟨?_, fun acceptable => ?_⟩⟩
  · rintro ⟨uid, s', step, assigned⟩ absent n asked
    rcases parseUid_ok step with ⟨held, _⟩ | ⟨_, unnumbered, _⟩ | ⟨_, numbered, _, unused, _⟩
    · rw [absent] at held
      cases held
    · rw [unnumbered] at asked
      cases asked
    · obtain rfl := Option.some.inj (numbered.symm.trans asked)
      exact ⟨assigned.positive, unused⟩
  · cases absent : s.property flow with
    | some uid =>
      refine ⟨uid, s, ?_, uidAssigned_kept valid absent⟩
      rw [parseUid, absent]
    | none =>
      cases asked : (request.number? tonumber).1 with
      | none => exact ⟨_, _, parseUid_next absent asked, uidAssigned_next valid absent asked⟩
      | some n =>
        have free := acceptable absent n asked
        exact ⟨_, _, parseUid_honoured absent asked free.positive free.2, uidAssigned_honoured valid absent asked free⟩

end

/-- Two flows without a wish and one that asks for number seven. -/
theorem uid_assignment_iff_seven :
    ∃ s : UidState Nat, s.Valid ∧ s.property 0 = some (.ofNat 1) ∧ s.property 1 = some (.ofNat 7) ∧
      s.property 2 = some (.ofNat 2) := by
  have free {s : UidState Nat} {n : Lua.Number} (integer : ∃ k, 0 < k ∧ n = .ofNat k) (unused : n ∉ s.uids)
      (flow : Nat) : UidAcceptable (fun _ => none) s flow (.number n) := by
    intro _ other asked
    obtain rfl := Option.some.inj asked
    exact ⟨integer, unused⟩
  have first : UidRun (F := Nat) (fun _ => none) _ := .next 0 .nil .start nofun rfl
  have second := first.next 1 (.number (.ofNat 7)) (free ⟨7, by decide, rfl⟩ (by decide +kernel) 1) rfl
  have third := second.next 2 (.other "table") nofun rfl
  exact ⟨_, (uid_assignment_iff (fun _ => none) _ third).1, rfl, rfl, rfl⟩

/-- A request for a uid that is taken or not positive raises, and one half is a uid. -/
theorem uid_requests_wrong :
    ∃ s : UidState Nat, UidRun (fun _ => none) s ∧
      parseUid (fun _ => none) s 1 (.number (.ofNat 1)) =
        .error "Invalid value. Needs to be a unique positive integer." ∧
      parseUid (fun _ => none) s 1 (.number (.ofNat 0)) =
        .error "Invalid value. Needs to be a unique positive integer." ∧
      ∃ s', parseUid (fun _ => none) s 1 (.number (.finite (1 / 2))) = .ok (.finite (1 / 2), s') :=
  ⟨_, .next 0 .nil .start nofun rfl, rfl, rfl, _, parseUid_honoured rfl rfl (by decide +kernel) (by decide +kernel)⟩

end MoonGen
