import Mathlib.Data.List.TakeWhile
import MoonGen.Namespace.Read

namespace MoonGen

/-- A Lua value that can be serialised. `nil` is no such value. -/
inductive LuaValue (N T : Type) where
  | boolean (b : Bool)
  | number (n : N)
  | string (bytes : List UInt8)
  | table (contents : T)
  deriving DecidableEq

/-- What is assumed of `Serpent`: the text of a dump runs to the value it was made of. -/
structure Serpent (N T : Type) where
  dump : LuaValue N T → CString
  load : CString → Option (LuaValue N T)
  load_dump : ∀ v, load (dump v) = some v

inductive ReservedKey where
  | forEach
  | lock
  deriving DecidableEq

def ReservedKey.name : ReservedKey → String
  | .forEach => "forEach"
  | .lock => "lock"

def reservedKey (key : List UInt8) : Option ReservedKey :=
  if key = "forEach".toByteArray.data.toList then some .forEach
  else if key = "lock".toByteArray.data.toList then some .lock
  else none

/-- What a read returns. -/
inductive Indexed (N T : Type) where
  | reserved (key : ReservedKey)
  | value (val : Option (LuaValue N T))
  deriving DecidableEq

/-- A key that reaches `__index` and `__newindex`. Numbers do not: they are offsets to the pointer. -/
inductive NamespaceKey where
  | string (bytes : List UInt8)
  | other

/-- An operation of a task on a namespace. A store may leave the string in its buffer. -/
inductive NsCall (N T : Type) where
  | index (key : NamespaceKey)
  | newindex (key : NamespaceKey) (val : Option (LuaValue N T)) (moves : Bool)

/-- The string a C function gets for a Lua string, which ends at the first zero byte. -/
def cString (bytes : List UInt8) : CString where
  bytes := bytes.takeWhile fun b => b != 0
  noNul member := by
    have nonzero := List.mem_takeWhile_imp member
    exact absurd rfl (bne_iff_ne.mp nonzero)

variable {N T : Type}

def LuaValue.truthy : LuaValue N T → Bool
  | .boolean b => b
  | _ => true

namespace Namespace

variable (serpent : Serpent N T) (ns : Namespace CString)

/-- `__index`, with no other task between the call of `namespace_retrieve` and the copy. -/
def index : NamespaceKey → Except String (Indexed N T)
  | .string key =>
    match reservedKey key with
    | some reserved => .ok (.reserved reserved)
    | none =>
      -- a missing string makes the conjunction false, and what is false is returned as nil
      let bool2 := (ns.stored (cString key)).bind serpent.load
      .ok (.value (bool2.filter LuaValue.truthy))
  | .other => .error "Table index must be a string"

/-- `__newindex`. -/
def newindex (key : NamespaceKey) (val : Option (LuaValue N T)) (moves : Bool) : Except String (Namespace CString) :=
  match key with
  | .string key =>
    match reservedKey key with
    | some reserved => .error (reserved.name ++ " is reserved")
    | none =>
      match val with
      | none => .ok (ns.namespaceDelete (cString key))
      | some val => .ok (ns.namespaceStore (cString key) (serpent.dump val) moves)
  | .other => .error "Table index must be a string"

/-- The namespace after an operation, which an error leaves as it is. -/
def call : NsCall N T → Namespace CString
  | .index _ => ns
  | .newindex key val moves =>
    match ns.newindex serpent key val moves with
    | .ok ns => ns
    | .error _ => ns

def calls (ops : List (NsCall N T)) : Namespace CString := ops.foldl (fun ns op => ns.call serpent op) ns

end Namespace

namespace NsCall

/-- The value an operation assigns to a key. -/
def assigned (key : List UInt8) : NsCall N T → Option (Option (LuaValue N T))
  | .newindex (.string k) val _ => if k = key then some val else none
  | _ => none

/-- The value that was assigned to a key last. -/
def lastAssigned (key : List UInt8) : List (NsCall N T) → Option (Option (LuaValue N T))
  | [] => none
  | op :: ops => (lastAssigned key ops).or (op.assigned key)

/-- Assigns to no other key that is the same string for the C functions. -/
def KeepsApart (key : List UInt8) : NsCall N T → Prop
  | .newindex (.string k) _ _ => cString k = cString key → k = key
  | _ => True

instance (key : List UInt8) : (op : NsCall N T) → Decidable (op.KeepsApart key)
  | .newindex (.string k) _ _ => inferInstanceAs (Decidable (cString k = cString key → k = key))
  | .index _ | .newindex .other _ _ => inferInstanceAs (Decidable True)

end NsCall

namespace Namespace

theorem stored_update (ns : Namespace CString) (key : CString) (str : Option StdString) (fresh : Nat)
    (other : CString) :
    stored { ns with map := Function.update ns.map key str, fresh } other =
      if other = key then str.map StdString.value else ns.stored other := by
  unfold stored
  dsimp only
  rw [Function.update_apply, apply_ite (Option.map StdString.value)]

theorem stored_namespaceStore (ns : Namespace CString) (key value : CString) (moves : Bool) (other : CString) :
    (ns.namespaceStore key value moves).stored other = if other = key then some value else ns.stored other := by
  unfold namespaceStore
  split
  · exact ns.stored_update _ _ _ other
  · exact ns.stored_update _ _ _ other

variable (serpent : Serpent N T) (ns : Namespace CString) {key : List UInt8}
section
variable (free : reservedKey key = none)

include free

theorem newindex_string (val : Option (LuaValue N T)) (moves : Bool) :
    ∃ ns', ns.newindex serpent (.string key) val moves = .ok ns' ∧
      ∀ other, ns'.stored other = if other = cString key then val.map serpent.dump else ns.stored other := by
  simp only [newindex, free]
  cases val with
  | none => exact ⟨_, rfl, ns.stored_update _ none ns.fresh⟩
  | some val => exact ⟨_, rfl, stored_namespaceStore ns _ _ moves⟩

/-- An operation leaves the string of a key as it is, or assigns to it. -/
theorem stored_call {op : NsCall N T} (apart : op.KeepsApart key) :
    (ns.call serpent op).stored (cString key) =
      match op.assigned key with
      | none => ns.stored (cString key)
      | some val => val.map serpent.dump := by
  match op with
  | .index _ => rfl
  | .newindex .other _ _ => rfl
  | .newindex (.string k) val moves =>
    rw [NsCall.assigned]
    cases reserved : reservedKey k with
    | some r =>
      have other : k ≠ key := by
        rintro rfl
        rw [free] at reserved
        cases reserved
      rw [if_neg other]
      simp only [call, newindex, reserved]
    | none =>
      obtain ⟨ns', done, strings⟩ := ns.newindex_string serpent reserved val moves
      simp only [call, done, strings]
      by_cases same : k = key
      · rw [if_pos same, if_pos (by rw [same])]
      · rw [if_neg same, if_neg fun equal => same (apart equal.symm)]

/-- What is stored under a key after a sequence of operations. -/
theorem stored_calls {ops : List (NsCall N T)} (apart : ∀ op ∈ ops, op.KeepsApart key) :
    (ns.calls serpent ops).stored (cString key) =
      match NsCall.lastAssigned key ops with
      | none => ns.stored (cString key)
      | some val => val.map serpent.dump := by
  induction ops generalizing ns with
  | nil => rfl
  | cons op ops ih =>
    have first := ns.stored_call serpent free (apart op List.mem_cons_self)
    have rest := ih (ns.call serpent op) fun op member => apart op (List.mem_cons_of_mem _ member)
    rw [NsCall.lastAssigned]
    refine rest.trans ?_
    cases NsCall.lastAssigned key ops with
    | none => exact first
    | some val => rfl

theorem index_string :
    ns.index serpent (.string key) =
      .ok (.value (((ns.stored (cString key)).bind serpent.load).filter LuaValue.truthy)) := by
  simp only [index, free]
end

theorem load_dump_filter (val : Option (LuaValue N T)) :
    ((val.map serpent.dump).bind serpent.load).filter LuaValue.truthy = val ↔ val ≠ some (.boolean false) := by
  cases val with
  | none => simp
  | some v =>
    rw [Option.map_some, Option.bind_some, serpent.load_dump]
    match v with
    | .boolean true | .boolean false | .number _ | .string _ | .table _ => simp [LuaValue.truthy]

/-- After any operations of a task a read of a key returns the value that was assigned
to it last, exactly when this is not `false`, and a key without an assignment is as
it was. -/
theorem namespace_index_iff (free : reservedKey key = none) {ops : List (NsCall N T)}
    (apart : ∀ op ∈ ops, op.KeepsApart key) :
    (∀ val, NsCall.lastAssigned key ops = some val →
        ((ns.calls serpent ops).index serpent (.string key) = .ok (.value val) ↔ val ≠ some (.boolean false))) ∧
      (NsCall.lastAssigned key ops = none →
        (ns.calls serpent ops).index serpent (.string key) = ns.index serpent (.string key)) := by
  have strings := ns.stored_calls serpent free apart
  refine ⟨fun val last => ?_, fun never => ?_⟩
  · rw [last] at strings
    rw [index_string serpent _ free, strings, ← load_dump_filter serpent val]
    simp only [Except.ok.injEq, Indexed.value.injEq]
  · rw [never] at strings
    rw [index_string serpent _ free, index_string serpent _ free, strings]

/-- Writes a zero byte of a string as two ones, and another byte with a two behind it. -/
def escape (bytes : List UInt8) : List UInt8 := bytes.flatMap fun b => if b = 0 then [1, 1] else [b, 2]

def unescape : List UInt8 → List UInt8
  | x :: y :: rest => (if y = 1 then 0 else x) :: unescape rest
  | _ => []

theorem zero_notMem_escape (bytes : List UInt8) : 0 ∉ escape bytes := by
  rw [escape, List.mem_flatMap]
  rintro ⟨b, -, zero⟩
  split at zero <;> simp_all

theorem unescape_escape (bytes : List UInt8) : unescape (escape bytes) = bytes := by
  induction bytes with
  | nil => rfl
  | cons b bytes ih =>
    rw [escape, List.flatMap_cons, ← escape]
    split
    · rename_i zero
      rw [zero]
      exact congrArg (0 :: ·) ih
    · exact congrArg (b :: ·) ih

/-- A serialiser for values with one number and one table. -/
def plain : Serpent Unit Unit where
  dump
    | .boolean false => ⟨[1], by decide⟩
    | .boolean true => ⟨[2], by decide⟩
    | .number () => ⟨[3], by decide⟩
    | .table () => ⟨[4], by decide⟩
    | .string bytes => ⟨5 :: escape bytes, List.not_mem_cons_of_ne_of_not_mem (by decide) (zero_notMem_escape bytes)⟩
  load text :=
    match text.bytes with
    | 1 :: _ => some (.boolean false)
    | 2 :: _ => some (.boolean true)
    | 3 :: _ => some (.number ())
    | 4 :: _ => some (.table ())
    | 5 :: bytes => some (.string (unescape bytes))
    | _ => none
  load_dump
    | .boolean false | .boolean true | .number () | .table () => rfl
    | .string bytes => congrArg (fun bytes => some (LuaValue.string bytes)) (unescape_escape bytes)

def empty : Namespace CString where
  map _ := none
  fresh := 0
  pc := .before
  during := []

theorem namespace_index_iff_true :
    (empty.calls plain [.newindex (.string [97]) (some (.boolean true)) true,
      .newindex (.string [98]) none true]).index plain (.string [97]) = .ok (.value (some (.boolean true))) := by
  have free : reservedKey [97] = none := by decide
  exact ((namespace_index_iff plain empty free (by decide)).1 _ rfl).mpr (by decide)

/-- A stored `false` is read as nil. And a key with a zero byte is the key that ends
before it. -/
theorem namespace_index_nil :
    (empty.calls plain [.newindex (.string [97]) (some (.boolean false)) true]).index plain (.string [97]) =
        .ok (.value none) ∧
      (empty.calls plain [.newindex (.string [97]) (some (.boolean true)) true,
        .newindex (.string [97, 0, 98]) none true]).index plain (.string [97]) = .ok (.value none) := by
  decide +kernel

end Namespace

end MoonGen
