import MoonGen.Lib.Lua
import MoonGen.Namespace.Store

namespace MoonGen

inductive FlowOption
  | rate
  | ratePattern
  | uniquePayload
  | timestamp
  | uid
  | mode
  | dataLimit
  | timeLimit
deriving DecidableEq, Repr

variable {N T : Type}

/-- Values for some of the options. `none` is `nil`. -/
abbrev OptionTable (N T : Type) := FlowOption → Option (LuaValue N T)

/-- A flow prototype, of which only the name and the options matter here. -/
structure FlowProto (N T : Type) where
  name : Option String
  options : OptionTable N T

/-- The prototypes by their names. -/
abbrev Flows (N T : Type) := String → Option (FlowProto N T)

/-- The field `parent` of the argument of `Flow`. -/
inductive FlowParent (N T : Type)
  | absent
  | named (name : String)
  | flow (proto : FlowProto N T)
  | other

/-- The argument of `Flow`. A name that is no string is `none`. -/
structure FlowArg (N T : Type) where
  name : Option String
  parent : FlowParent N T
  options : OptionTable N T

def flowName (name : Option String) : Option String :=
  name.filter fun s => s ≠ "" && !s.any fun c => c ∈ [' ', ';', '/', ':', ',']

/-- The parent of a new flow. A value that is no flow is an error of the configuration, and the function goes
on without a parent: the `string.format` of LuaJIT takes nil for `%q` in the message. -/
def FlowParent.find (flows : Flows N T) : FlowParent N T → Option (FlowProto N T)
  | absent => none
  | named name => flows name
  | flow proto => some proto
  | other => none

/-- The options of a new flow. -/
def mergeOptions (tbl : OptionTable N T) (parent : Option (FlowProto N T)) : OptionTable N T := fun i =>
  let parentOpts := parent.bind fun proto => proto.options i
  Lua.or LuaValue.truthy (tbl i) parentOpts

/-- `Flow` of the configuration language. A name that is taken keeps its flow. -/
def makeFlow (flows : Flows N T) (tbl : FlowArg N T) : FlowProto N T × Flows N T :=
  let parent := tbl.parent.find flows
  let flow : FlowProto N T := { name := flowName tbl.name, options := mergeOptions tbl.options parent }
  match flow.name with
  | none => (flow, flows)
  | some name =>
    (flow, fun other => if other = name then some ((flows name).getD flow) else flows other)

/-- The value that `getInstance` hands to the parser of an option. -/
def optionValue (cliOptions : OptionTable N T) (proto : FlowProto N T) (i : FlowOption) : Option (LuaValue N T) :=
  Lua.or LuaValue.truthy (cliOptions i) (proto.options i)

/-- A flow with the tables that it and its ancestors were made of, its own first. -/
inductive FlowChain : FlowProto N T → List (OptionTable N T) → Prop
  | root (name : Option String) (tbl : OptionTable N T) :
      FlowChain { name, options := mergeOptions tbl none } [tbl]
  | child {parent : FlowProto N T} {chain : List (OptionTable N T)} (name : Option String) (tbl : OptionTable N T) :
      FlowChain parent chain → FlowChain { name, options := mergeOptions tbl (some parent) } (tbl :: chain)

/-- The configuration runs to some flows, each of which may be the parent of later ones. -/
inductive FlowsMade : List (FlowProto N T) → Flows N T → Prop
  | start : FlowsMade [] fun _ => none
  | next {made : List (FlowProto N T)} {flows : Flows N T} (tbl : FlowArg N T) :
      FlowsMade made flows → (∀ proto, tbl.parent = .flow proto → proto ∈ made) →
      FlowsMade ((makeFlow flows tbl).1 :: made) (makeFlow flows tbl).2

variable {proto : FlowProto N T}

/-- The value on the command line, or else that of the nearest flow that sets the option. -/
def nearestValue (cliOptions : OptionTable N T) (chain : List (OptionTable N T)) (i : FlowOption) :
    Option (LuaValue N T) :=
  ((cliOptions :: chain).map (· i)).reduceOption.head?

theorem FlowChain.options_eq {chain : List (OptionTable N T)} (built : FlowChain proto chain)
    (i : FlowOption) : proto.options i = (chain.map (· i)).foldr (Lua.or LuaValue.truthy) none := by
  induction built with
  | root name tbl => rfl
  | child name tbl _ ih =>
    rw [List.map_cons, List.foldr_cons, ← ih]
    rfl

theorem makeFlow_fst (flows : Flows N T) (tbl : FlowArg N T) : (makeFlow flows tbl).1 =
    { name := flowName tbl.name, options := mergeOptions tbl.options (tbl.parent.find flows) } := by
  rw [makeFlow]
  split <;> rfl

/-- A flow in the list of all flows is the new one or was there before. -/
theorem makeFlow_snd {flows : Flows N T} {tbl : FlowArg N T} {name : String}
    (found : (makeFlow flows tbl).2 name = some proto) : proto = (makeFlow flows tbl).1 ∨ flows name = some proto := by
  rw [makeFlow_fst]
  rw [makeFlow] at found
  split at found
  · exact .inr found
  · rename_i own _
    simp only at found
    split at found
    · rename_i same
      rw [same]
      cases held : flows own with
      | none =>
        rw [held] at found
        exact .inl (Option.some.inj found).symm
      | some old =>
        rw [held] at found
        exact .inr found
    · exact .inr found

theorem FlowsMade.registered {made : List (FlowProto N T)} {flows : Flows N T} (run : FlowsMade made flows)
    {name : String} (found : flows name = some proto) : proto ∈ made := by
  induction run generalizing name with
  | start => cases found
  | next tbl _ _ ih =>
    rcases makeFlow_snd found with new | old
    · exact new ▸ List.mem_cons_self
    · exact List.mem_cons_of_mem _ (ih old)

/-- Every flow of a configuration has its chain of ancestors. -/
theorem FlowsMade.chain {made : List (FlowProto N T)} {flows : Flows N T} (run : FlowsMade made flows)
    (member : proto ∈ made) : ∃ chain, FlowChain proto chain := by
  induction run generalizing proto with
  | start => cases member
  | @next made flows tbl before earlier ih =>
    rcases List.mem_cons.mp member with new | old
    · rw [new, makeFlow_fst]
      cases known : tbl.parent.find flows with
      | none => exact ⟨_, .root _ _⟩
      | some parent =>
        have there : parent ∈ made := by
          cases field : tbl.parent with
          | absent => rw [field] at known; cases known
          | named name => rw [field] at known; exact before.registered known
          | flow proto => rw [field] at known; exact Option.some.inj known ▸ earlier proto field
          | other => rw [field] at known; cases known
        obtain ⟨chain, built⟩ := ih there
        exact ⟨_, .child _ _ built⟩
    · exact ih old

theorem truthy_iff (v : LuaValue N T) : v.truthy = true ↔ v ≠ .boolean false := by
  cases v with
  | boolean b => cases b <;> simp [LuaValue.truthy]
  | number n => simp [LuaValue.truthy]
  | string bytes => simp [LuaValue.truthy]
  | table contents => simp [LuaValue.truthy]

/-- The parser gets the value of the nearest flow that sets the option, unless that value
is `false`, which gives way to those behind it. -/
theorem option_value_iff {chain : List (OptionTable N T)} (built : FlowChain proto chain)
    (cliOptions : OptionTable N T) (i : FlowOption) :
    optionValue cliOptions proto i = nearestValue cliOptions chain i ↔
      nearestValue cliOptions chain i ≠ some (.boolean false) := by
  have value : optionValue cliOptions proto i =
      ((cliOptions :: chain).map (· i)).foldr (Lua.or LuaValue.truthy) none := by
    rw [optionValue, built.options_eq, List.map_cons, List.foldr_cons]
  rw [value, Lua.foldr_or, nearestValue, Lua.find?_eq_head?_iff]
  simp only [Option.mem_def, truthy_iff]
  exact ⟨fun each same => each _ same rfl, fun other v held same => other (same ▸ held)⟩

/-- A table that sets one option. -/
def setsOption (i : FlowOption) (v : LuaValue N T) : OptionTable N T := fun j => if j = i then some v else none

/-- A flow without a name and without a parent. -/
def rootFlow (tbl : OptionTable N T) : FlowProto N T := { name := none, options := mergeOptions tbl none }

def childFlow (tbl base : OptionTable N T) : FlowProto N T :=
  { name := none, options := mergeOptions tbl (some (rootFlow base)) }

theorem option_value_iff_rate : optionValue (N := Nat) (T := Unit) (fun _ => none)
      (childFlow (setsOption .rate (.number 100)) (setsOption .rate (.number 50))) .rate = some (.number 100) :=
  (option_value_iff (.child none (setsOption .rate (.number 100)) (.root none (setsOption .rate (.number 50))))
    (fun _ => none) .rate).mpr nofun

/-- A flow that sets an option to `false` gets the value of its parent, or none at all. -/
theorem option_false_lost : optionValue (N := Nat) (T := Unit) (fun _ => none)
      (childFlow (setsOption .uniquePayload (.boolean false)) (setsOption .uniquePayload (.boolean true)))
      .uniquePayload = some (.boolean true) ∧
    optionValue (N := Nat) (T := Unit) (fun _ => none) (rootFlow (setsOption .uniquePayload (.boolean false)))
      .uniquePayload = none :=
  ⟨rfl, rfl⟩

end MoonGen
