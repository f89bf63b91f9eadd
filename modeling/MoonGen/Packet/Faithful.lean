import Mathlib.Data.List.GetD
import MoonGen.Packet.Resolve

namespace MoonGen.Packet

open List

/-- The byte at which each member of a struct starts. -/
def offsets : Nat → List Nat → List Nat
  | _, [] => []
  | a, size :: sizes => a :: offsets (a + size) sizes

/-- The byte at which each header starts in a frame, by the lengths that the
headers before it have there. -/
def actualOffsets (frame : Memory) : Nat → List HeaderData → List Nat
  | _, [] => []
  | a, h :: headers => a :: actualOffsets frame (a + h.baseSize + h.actualVariable frame a) headers

/-- The struct has every member where the frame has the header. -/
def PacketType.Places (type : PacketType) (frame : Memory) : Prop :=
  offsets 0 (type.struct.map (·.2)) = actualOffsets frame 0 type.name

instance (type : PacketType) (frame : Memory) : Decidable (type.Places frame) :=
  inferInstanceAs (Decidable (_ = _))

/-- The lengths in the name of a type, in its argument list and in its struct are
the same. -/
structure Vm.Agrees (vm : Vm) (type : PacketType) : Prop where
  args : type.args.map (fun ref => (vm.data ref).length) = type.name.map (·.length)
  struct : type.struct.map (·.2) = type.name.map HeaderData.size

/-- The types of a VM agree, and the type returned fits its frame. -/
structure Resolver.Faithful (s : Resolver) : Prop where
  agrees : ∀ type ∈ s.vm.types, s.vm.Agrees type
  places : ∀ frame name, s.returned = some (frame, name) →
    s.vm.Registered name ∧ ∀ type ∈ s.vm.types, type.name = name → type.Places frame

/-- The last header of the type that a frame is seen as has nothing behind its
fixed part in the frame. -/
def Resolver.NoOptions (s : Resolver) : ResolverAction → Prop
  | .get _ => True
  | .call _ => ∀ seen ∈ s.current, ∀ type ∈ s.vm.find seen.2, ∀ last ∈ seen.2.getLast?,
      last.actualVariable seen.1 type.lastOffset = 0

/-- No header of a list has anything behind its fixed part. -/
def NoVariable (frame : Memory) : Nat → List HeaderData → Prop
  | _, [] => True
  | a, h :: headers => h.actualVariable frame a = 0 ∧ NoVariable frame (a + h.size) headers

theorem noVariable_concat {frame : Memory} {a : Nat} {headers : List HeaderData} {h : HeaderData} :
    NoVariable frame a (headers ++ [h]) ↔
      NoVariable frame a headers ∧ h.actualVariable frame (a + (headers.map HeaderData.size).sum) = 0 := by
  induction headers generalizing a with
  | nil => simp [NoVariable]
  | cons first headers ih =>
    simp only [cons_append, NoVariable, ih, map_cons, sum_cons, and_assoc, Nat.add_assoc]

theorem size_of_length_none {h : HeaderData} (plain : h.length = none) : h.size = h.baseSize := by
  simp [HeaderData.size, HeaderData.variableSize, plain]

theorem offsets_eq_actualOffsets {frame : Memory} {a : Nat} {headers : List HeaderData} {last : HeaderData}
    (plain : ∀ h ∈ headers, h.length = none) (fixed : NoVariable frame a headers) :
    offsets a ((headers ++ [last]).map HeaderData.size) = actualOffsets frame a (headers ++ [last]) := by
  induction headers generalizing a with
  | nil => rfl
  | cons first headers ih =>
    obtain ⟨zero, fixed⟩ := fixed
    have same := size_of_length_none (plain first (by simp))
    simp only [cons_append, map_cons, offsets, actualOffsets, zero, Nat.add_zero, ← same]
    rw [ih (fun h member => plain h (by simp [member])) fixed]

def ArgRef.Within (n : Nat) : ArgRef → Prop
  | .keyword _ => True
  | .table address => address < n

instance (n : Nat) : DecidablePred (ArgRef.Within n)
  | .keyword _ => inferInstanceAs (Decidable True)
  | .table address => inferInstanceAs (Decidable (address < n))

namespace Vm

/-- What holds of a type as long as no header with a variable part has been met. -/
structure TypeSound (vm : Vm) (type : PacketType) : Prop where
  args : type.args.map vm.data = type.name
  within : ∀ ref ∈ type.args, ref.Within vm.tables.length
  struct : type.struct = type.name.map fun h => (h.name, h.size)
  plain : ∀ h ∈ type.name, h.length = none

structure Sound (vm : Vm) : Prop where
  types : ∀ type ∈ vm.types, vm.TypeSound type
  ethernet : vm.Registered [getHeaderData (.keyword .ethernet)]

theorem load_sound : load.Sound := by
  have all : (∀ type ∈ load.types, type.args.map load.data = type.name ∧
      (∀ ref ∈ type.args, ref.Within load.tables.length) ∧ (type.struct = type.name.map fun h => (h.name, h.size)) ∧
      ∀ h ∈ type.name, h.length = none) ∧ load.Registered [getHeaderData (.keyword .ethernet)] := by
    decide +kernel
  refine ⟨fun type member => ?_, all.2⟩
  obtain ⟨args, within, struct, plain⟩ := all.1 type member
  exact ⟨args, within, struct, plain⟩

variable {vm : Vm} {type : PacketType}

theorem TypeSound.agrees (sound : vm.TypeSound type) : vm.Agrees type where
  args := by rw [← sound.args, map_map]; rfl
  struct := by rw [sound.struct, map_map]; rfl

/-- A frame is seen as a type whose headers, the last one apart, have nothing
behind their fixed parts. -/
structure Sees (vm : Vm) (frame : Memory) (name : List HeaderData) : Prop where
  registered : vm.Registered name
  nonempty : name ≠ []
  fixed : NoVariable frame 0 name.dropLast

variable {frame : Memory} {name : List HeaderData}

theorem Sound.places (sound : vm.Sound)
    (sees : vm.Sees frame name) (member : type ∈ vm.types) (same : type.name = name) :
    type.Places frame := by
  subst same
  have split := dropLast_append_getLast sees.nonempty
  have sizes : type.struct.map (·.2) = type.name.map HeaderData.size := (sound.types type member).agrees.struct
  have plain := (sound.types type member).plain
  rw [PacketType.Places, sizes, ← split]
  exact offsets_eq_actualOffsets (fun h inside => plain h (dropLast_subset _ inside)) sees.fixed

theorem TypeSound.lastOffset (sound : vm.TypeSound type) :
    type.lastOffset = (type.name.dropLast.map HeaderData.size).sum := by
  rw [PacketType.lastOffset, sound.struct, ← map_dropLast, map_map]
  rfl

theorem mem_of_find (found : vm.find name = some type) : type ∈ vm.types ∧ type.name = name := by
  have holds := find?_some found
  exact ⟨mem_of_find?_eq_some found, by simpa using holds⟩

theorem exists_find (registered : vm.Registered name) : ∃ type, vm.find name = some type := by
  obtain ⟨type, member, same⟩ := registered
  rw [← Option.isSome_iff_exists, find, find?_isSome]
  exact ⟨type, member, by simpa using same⟩

theorem argsOf_eq (found : vm.find name = some type) : vm.argsOf name = type.args := by
  simp [argsOf, found]

/-- A call that keeps the VM sound and goes on with a type the frame can be seen as. -/
def Goes (frame : Memory) (name : List HeaderData) : Vm × Outcome → Prop
  | (vm, .again next) => vm.Sound ∧ vm.Sees frame next
  | (vm, .returned) => vm.Sound ∧ vm.Sees frame name
  | (vm, .raised) => vm.Sound

theorem Sound.cast_goes (sound : vm.Sound) (name : List HeaderData)
    {next : List HeaderData} (nonempty : next ≠ []) (fixed : NoVariable frame 0 next.dropLast) :
    Goes frame name (vm, vm.cast next) := by
  by_cases registered : vm.Registered next
  · rw [cast, if_pos registered]
    exact ⟨sound, registered, nonempty, fixed⟩
  · rw [cast, if_neg registered]
    exact sound

theorem data_extend {ref : ArgRef} (within : ref.Within vm.tables.length) (fields : ArgTable) :
    Vm.data { vm with tables := vm.tables ++ [fields] } ref = vm.data ref := by
  cases ref with
  | keyword proto => rfl
  | table address => simp only [data, deref, getD_append _ _ _ _ within]

theorem TypeSound.extend (sound : vm.TypeSound type) (fields : ArgTable) :
    TypeSound { vm with tables := vm.tables ++ [fields] } type where
  args := by
    rw [← sound.args]
    exact map_congr_left fun ref inside => data_extend (sound.within ref inside) fields
  within ref inside := by
    have old := sound.within ref inside
    cases ref with
    | keyword proto => trivial
    | table address =>
      show address < (vm.tables ++ [fields]).length
      rw [length_append]
      exact Nat.lt_add_right _ old
  struct := sound.struct
  plain := sound.plain

theorem Sound.extend (sound : vm.Sound) (fields : ArgTable) : Sound { vm with tables := vm.tables ++ [fields] } :=
  ⟨fun type member => (sound.types type member).extend fields, sound.ethernet⟩

theorem Sound.createStack {created : Vm} (sound : vm.Sound) {args : List ArgRef}
    (within : ∀ ref ∈ args, ref.Within vm.tables.length) (plain : ∀ ref ∈ args, (vm.data ref).length = none)
    (made : vm.createStack args = some created) : created.Sound := by
  obtain ⟨_, _, rfl⟩ := Option.map_eq_some_iff.mp made
  split
  · exact sound
  · constructor
    · intro type member
      obtain old | new := mem_append.mp member
      · obtain ⟨same, inside, struct, fixed⟩ := sound.types type old
        exact ⟨same, inside, struct, fixed⟩
      · rw [mem_singleton.mp new]
        exact ⟨rfl, within, rfl, by simpa using plain⟩
    · obtain ⟨type, member, same⟩ := sound.ethernet
      exact ⟨type, mem_append_left _ member, same⟩

theorem similar_spec {found : List HeaderData} {proto : Proto} {choice : Nat}
    (similar : vm.similar name proto choice = some found) :
    vm.Registered found ∧ found ≠ [] ∧ found.dropLast = name := by
  have member := mem_of_getElem? similar
  simp only [mem_filter, mem_map, decide_eq_true_eq] at member
  obtain ⟨registered, same, last⟩ := member
  refine ⟨registered, ?_, same⟩
  rintro rfl
  simp at last

theorem Sound.createNext_goes (sound : vm.Sound)
    (registered : vm.Registered name) (fixed : NoVariable frame 0 name) {next : HeaderData}
    (plain : next.length = none) :
    Goes frame name (vm.createNext name next) := by
  obtain ⟨type, found⟩ := exists_find registered
  obtain ⟨member, -⟩ := mem_of_find found
  rw [createNext, argsOf_eq found]
  generalize uniqueMember _ _ = newMember
  have extended := sound.extend ⟨next.proto, some newMember, next.length, next.subType⟩
  split
  next => exact extended
  next created made =>
    refine Sound.cast_goes ?_ name (by simp) (by simpa using fixed)
    refine extended.createStack (fun ref inside => ?_) (fun ref inside => ?_) made
    · obtain old | new := mem_append.mp inside
      · exact (extended.types type member).within ref old
      · rw [mem_singleton.mp new]
        simp [ArgRef.Within]
    · obtain old | new := mem_append.mp inside
      · have known := sound.types type member
        rw [data_extend (known.within ref old)]
        exact known.plain _ (known.args ▸ mem_map_of_mem old)
      · rw [mem_singleton.mp new]
        simp [data, deref, getHeaderData, plain]

theorem Sound.resolveNext_goes (sound : vm.Sound)
    (sees : vm.Sees frame name) (fixed : NoVariable frame 0 name) (nextHeader : Option (Option Proto)) (choice : Nat) :
    Goes frame name (vm.resolveNext name nextHeader choice) := by
  cases nextHeader with
  | none => exact sound
  | some next =>
    cases next with
    | none => exact ⟨sound, sees⟩
    | some proto =>
      rw [resolveNext]
      split
      next registered => exact ⟨sound, registered, by simp, by simpa using fixed⟩
      next =>
        split
        next found similar =>
          obtain ⟨registered, nonempty, same⟩ := similar_spec similar
          exact ⟨sound, registered, nonempty, same ▸ fixed⟩
        next => exact sound.createNext_goes sees.registered fixed rfl

/-- One call for a header that has nothing behind its fixed part. -/
theorem Sound.resolveLastHeader_goes (sound : vm.Sound)
    (sees : vm.Sees frame name) (found : vm.find name = some type) {last : HeaderData}
    (ends : name.getLast? = some last) (zero : last.actualVariable frame type.lastOffset = 0) (choice : Nat) :
    Goes frame name (vm.resolveLastHeader frame name choice) := by
  obtain ⟨member, same⟩ := mem_of_find found
  have split : name = name.dropLast ++ [last] := (dropLast_append_getLast? last ends).symm
  have place : type.lastOffset = 0 + (name.dropLast.map HeaderData.size).sum := by
    rw [(sound.types type member).lastOffset, same, Nat.zero_add]
  have fixed : NoVariable frame 0 name := by
    rw [split, noVariable_concat, ← place]
    exact ⟨sees.fixed, zero⟩
  have length (nextHeader : Option (Option Proto)) : Goes frame name (vm.resolveLength name last
      (last.getVariableLength frame type.lastOffset) nextHeader choice) := by
    have small : ¬ 0 < (last.getVariableLength frame type.lastOffset).getD 0 := by
      rw [HeaderData.actualVariable] at zero
      omega
    rw [resolveLength, if_neg small]
    exact sound.resolveNext_goes sees fixed nextHeader choice
  rw [resolveLastHeader, found, ends]
  dsimp only
  split
  next subType _ =>
    split
    next => exact length _
    next => exact sound.cast_goes name (by simp) (by simpa using sees.fixed)
  next => exact length _

theorem createStack_keeps {created : Vm} {args : List ArgRef} (made : vm.createStack args = some created) :
    created.tables = vm.tables ∧ ∀ type ∈ vm.types, type ∈ created.types := by
  obtain ⟨_, _, rfl⟩ := Option.map_eq_some_iff.mp made
  split
  · exact ⟨rfl, fun _ member => member⟩
  · exact ⟨rfl, fun _ member => mem_append_left _ member⟩

/-- The last header has a length in the argument list and none in the name. -/
structure Differs (vm : Vm) (type : PacketType) : Prop where
  name : ∃ last, type.name.getLast? = some last ∧ last.length = none
  args : ∃ ref, type.args.getLast? = some ref ∧ (vm.data ref).length ≠ none

theorem Differs.not_agrees (differs : vm.Differs type) : ¬ vm.Agrees type := by
  intro agrees
  obtain ⟨last, named, plain⟩ := differs.name
  obtain ⟨ref, given, carries⟩ := differs.args
  have same := congrArg List.getLast? agrees.args
  rw [getLast?_map, getLast?_map, named, given] at same
  exact carries ((Option.some.inj same).trans plain)

/-- Setting a length makes the type differ. -/
theorem Sound.setLength_differs (sound : vm.Sound)
    (found : vm.find name = some type) (nonempty : name ≠ []) (len : Nat) :
    ∃ changed ∈ (vm.setLength name len).types, (vm.setLength name len).Differs changed := by
  obtain ⟨member, rfl⟩ := mem_of_find found
  have known := sound.types type member
  have args := known.args
  have filled : type.args ≠ [] := by
    intro empty
    rw [empty] at args
    exact nonempty args.symm
  obtain ⟨ref, given⟩ : ∃ ref, type.args.getLast? = some ref := ⟨_, getLast?_eq_some_getLast filled⟩
  have named : ∃ last, type.name.getLast? = some last ∧ last.length = none :=
    ⟨_, getLast?_eq_some_getLast nonempty, known.plain _ (getLast_mem nonempty)⟩
  rw [setLength, argsOf_eq found, given]
  cases ref with
  | keyword proto =>
    refine ⟨{ type with args := type.args.dropLast ++ [.table vm.tables.length] }, ?_, named, _, getLast?_concat, ?_⟩
    · exact mem_map.mpr ⟨type, member, by simp⟩
    · simp [data, deref, getHeaderData]
  | table address =>
    refine ⟨type, member, named, _, given, ?_⟩
    have inside : address < vm.tables.length := known.within _ (mem_of_getLast? given)
    simp [data, deref, getHeaderData, inside]

/-- Only `ip4` and `tcp` have a variable length, and they have no sub types. -/
theorem getSubType_of_variable {h : HeaderData} {a : Nat}
    (positive : 0 < (h.getVariableLength frame a).getD 0) : h.getSubType frame a = none := by
  obtain ⟨proto, name, length, subType⟩ := h
  cases proto with
  | ip4 | tcp => rfl
  | _ => simp [HeaderData.getVariableLength] at positive

theorem Differs.mono {created : Vm} (differs : vm.Differs type)
    (tables : created.tables = vm.tables) : created.Differs type := by
  have same : created.data = vm.data := by
    funext ref
    cases ref with
    | keyword proto => rfl
    | table address => simp only [data, deref, tables]
  exact ⟨differs.name, same ▸ differs.args⟩

/-- One call for a header with a variable part. -/
theorem Sound.resolveLastHeader_differs (sound : vm.Sound) (found : vm.find name = some type) {last : HeaderData}
    (ends : name.getLast? = some last) (options : last.actualVariable frame type.lastOffset ≠ 0) (choice : Nat) :
    ∃ changed ∈ (vm.resolveLastHeader frame name choice).1.types,
      ¬ (vm.resolveLastHeader frame name choice).1.Agrees changed := by
  obtain ⟨member, same⟩ := mem_of_find found
  have nonempty : name ≠ [] := by
    rintro rfl
    simp at ends
  have plain : last.length = none := (sound.types type member).plain last (same ▸ mem_of_getLast? ends)
  have positive : 0 < (last.getVariableLength frame type.lastOffset).getD 0 := by
    rw [HeaderData.actualVariable] at options
    omega
  simp only [resolveLastHeader, found, ends, getSubType_of_variable positive, resolveLength, if_pos positive]
  generalize ((last.getVariableLength frame type.lastOffset).getD 0).toNat = len
  obtain ⟨changed, inside, differs⟩ := sound.setLength_differs found nonempty len
  have renamed : name ≠ name.dropLast ++ [{ last with length := some len }] := by
    intro equal
    have lasts := congrArg List.getLast? equal
    rw [ends, getLast?_concat] at lasts
    have lengths := congrArg HeaderData.length (Option.some.inj lasts)
    simp [plain] at lengths
  simp only [if_pos renamed]
  split
  next => exact ⟨changed, inside, differs.not_agrees⟩
  next created made =>
    have kept : created.tables = (vm.setLength name len).tables ∧
        ∀ type ∈ (vm.setLength name len).types, type ∈ created.types := by
      split at made
      next =>
        cases made
        exact ⟨rfl, fun _ member => member⟩
      next => exact createStack_keeps made
    exact ⟨changed, kept.2 changed inside, (differs.mono kept.1).not_agrees⟩

end Vm

namespace Resolver

/-- What holds in a run without variable parts. -/
structure Holds (s : Resolver) : Prop where
  sound : s.vm.Sound
  current : ∀ frame name, s.current = some (frame, name) → s.vm.Sees frame name
  returned : ∀ frame name, s.returned = some (frame, name) → s.vm.Sees frame name

variable {s : Resolver}

theorem Holds.faithful (holds : s.Holds) : s.Faithful where
  agrees type member := (holds.sound.types type member).agrees
  places frame name returned :=
    have sees := holds.returned frame name returned
    ⟨sees.registered, fun _ member same => holds.sound.places sees member same⟩

theorem holds_start (first : s = ⟨.load, none, none⟩) : s.Holds where
  sound := by simpa only [first] using Vm.load_sound
  current := by simp [first]
  returned := by simp [first]

theorem step_of_goes {frame : Memory} {name : List HeaderData} {choice : Nat}
    (current : s.current = some (frame, name)) (goes : Vm.Goes frame name (s.vm.resolveLastHeader frame name choice)) :
    (s.step (.call choice)).Holds := by
  simp only [step, current]
  generalize s.vm.resolveLastHeader frame name choice = result at goes
  obtain ⟨vm, outcome⟩ := result
  cases outcome with
  | again next =>
    refine ⟨goes.1, fun f n same => ?_, fun _ _ absent => (nomatch absent)⟩
    cases same
    exact goes.2
  | returned =>
    refine ⟨goes.1, fun _ _ absent => (nomatch absent), fun f n same => ?_⟩
    cases same
    exact goes.2
  | raised => exact ⟨goes, fun _ _ absent => (nomatch absent), fun _ _ absent => (nomatch absent)⟩

theorem Holds.step (holds : s.Holds) {a : ResolverAction} (able : s.Enabled a) (plain : s.NoOptions a) :
    (s.step a).Holds := by
  cases a with
  | get frame =>
    refine ⟨holds.sound, fun f n same => ?_, fun _ _ absent => (nomatch absent)⟩
    cases same
    exact ⟨holds.sound.ethernet, by simp, trivial⟩
  | call choice =>
    obtain ⟨⟨frame, name⟩, current⟩ := Option.isSome_iff_exists.mp able
    have sees := holds.current frame name current
    obtain ⟨type, found⟩ := Vm.exists_find sees.registered
    have ends := getLast?_eq_some_getLast sees.nonempty
    exact step_of_goes current
      (holds.sound.resolveLastHeader_goes sees found ends (plain _ current type found _ ends) choice)

theorem Holds.not_faithful (holds : s.Holds) {choice : Nat} {frame : Memory} {name : List HeaderData}
    {type : PacketType} {last : HeaderData} (current : s.current = some (frame, name))
    (found : s.vm.find name = some type) (ends : name.getLast? = some last)
    (options : last.actualVariable frame type.lastOffset ≠ 0) : ¬ (s.step (.call choice)).Faithful := by
  obtain ⟨changed, member, differs⟩ := holds.sound.resolveLastHeader_differs found ends options choice
  have after : (s.step (.call choice)).vm = (s.vm.resolveLastHeader frame name choice).1 := by
    simp only [Resolver.step, current]
    generalize s.vm.resolveLastHeader frame name choice = result
    obtain ⟨vm, outcome⟩ := result
    cases outcome <;> rfl
  intro faithful
  have agrees := faithful.agrees changed (after ▸ member)
  exact differs (after ▸ agrees)

end Resolver

/-- In every run in which no header met so far had a variable part, the next step
leaves the types faithful exactly when the header it meets has none either. -/
theorem resolve_faithful_iff {s : Resolver} (reach : (resolver.guarded Resolver.NoOptions).Reach s)
    {a : ResolverAction} (able : s.Enabled a) : (s.step a).Faithful ↔ s.NoOptions a := by
  have holds : s.Holds := reach.invariant (fun _ => Resolver.holds_start) fun _ _ held able => held.step able.1 able.2
  constructor
  · intro faithful
    cases a with
    | get frame => trivial
    | call choice =>
      intro ⟨frame, name⟩ current type found last ends
      by_contra options
      exact holds.not_faithful current found ends options faithful
  · exact fun plain => (holds.step able plain).faithful

namespace Resolver

instance (s : Resolver) : DecidablePred s.Enabled
  | .get _ => decidable_of_iff (s.current.isNone = true) Option.isNone_iff_eq_none
  | .call _ => inferInstanceAs (Decidable (s.current.isSome = true))

instance (s : Resolver) : DecidablePred s.NoOptions
  | .get _ => inferInstanceAs (Decidable True)
  | .call _ => inferInstanceAs (Decidable (∀ seen ∈ s.current, ∀ type ∈ s.vm.find seen.2, ∀ last ∈ seen.2.getLast?,
      last.actualVariable seen.1 type.lastOffset = 0))

instance (s : Resolver) (a : ResolverAction) : Decidable (resolver.enabled s a) :=
  inferInstanceAs (Decidable (s.Enabled a))

/-- A frame with an Ethernet header, an IPv4 header, a UDP header to the port of
VXLAN and behind them an Ethernet header and an IPv4 header. The two bytes are the
first of the inner IPv4 header and its protocol. -/
def vxlanFrame (verihl protocol : UInt8) : Memory := fun a =>
  let bytes := [(12, 0x08), (14, 0x45), (23, 0x11), (36, 0x12), (37, 0xb5), (62, 0x08), (64, verihl), (73, protocol)]
  (bytes.lookup a).getD 0

/-- The members of a type with the lengths in its name. -/
def members (name : List HeaderData) : List (String × Option Nat) := name.map fun h => (h.name, h.length)

/-- A frame and the calls that resolve it. -/
def resolves (frame : Memory) (choices : List Nat) : List ResolverAction := .get frame :: choices.map .call

end Resolver

open Resolver

theorem resolve_faithful_inner : ∃ s, (resolver.guarded NoOptions).Reach s ∧
    s.current.map (fun seen => members seen.2) =
      some [("eth", none), ("ip4", none), ("udp", none), ("vxlan", none), ("innerEth", none), ("ip42", none)] ∧
    (s.step (.call 0)).Faithful := by
  have run : (resolver.guarded NoOptions).leadsTo (fun s => decide (s.current.map (fun seen => members seen.2) =
      some [("eth", none), ("ip4", none), ("udp", none), ("vxlan", none), ("innerEth", none), ("ip42", none)]) &&
        decide (s.NoOptions (.call 0))) ⟨.load, none, none⟩ (resolves (vxlanFrame 0x45 0) [0, 0, 0, 0, 0]) = true := by
    decide +kernel
  obtain ⟨s, reach, seen⟩ := Machine.reach_of_leadsTo run (.start rfl)
  simp only [Bool.and_eq_true, decide_eq_true_eq] at seen
  have able : s.Enabled (.call 0) := by
    show s.current.isSome = true
    simpa using congrArg Option.isSome seen.1
  exact ⟨s, reach, seen.1, (resolve_faithful_iff reach able).mpr seen.2⟩

/-- A frame whose inner IPv4 header has four bytes of options leaves a type with
that length in its argument list and none in its name. A second frame without
options is then seen as a type with them, when `pairs` meets that type first, and
the header behind is looked for four bytes too late. -/
theorem resolve_misplaces :
    (∃ s, resolver.Reach s ∧ ∃ type ∈ s.vm.types, ¬ s.vm.Agrees type) ∧
    ∃ s, resolver.Reach s ∧ ∃ frame name, s.returned = some (frame, name) ∧
      members name = [("eth", none), ("ip4", none), ("udp", none), ("vxlan", none), ("innerEth", none),
        ("ip42", some 4), ("esp", none)] ∧ ∃ type ∈ s.vm.types, type.name = name ∧ ¬ type.Places frame := by
  -- the second frame leaves the type in disagreement that the first has changed
  have run : resolver.leadsTo (fun s => (s.vm.types.any fun type => decide (type.args.map (fun ref =>
      (s.vm.data ref).length) ≠ type.name.map (·.length))) && s.returned.any fun seen => decide (members seen.2 =
      [("eth", none), ("ip4", none), ("udp", none), ("vxlan", none), ("innerEth", none), ("ip42", some 4),
        ("esp", none)]) && s.vm.types.any fun type => decide (type.name = seen.2 ∧ ¬ type.Places seen.1)) ⟨.load, none, none⟩
        (resolves (vxlanFrame 0x46 0) [0, 0, 0, 0, 0, 0, 0] ++ resolves (vxlanFrame 0x45 0x32) [0, 0, 0, 0, 1, 0, 0]) =
          true := by
    decide +kernel
  obtain ⟨s, reach, test⟩ := Machine.reach_of_leadsTo run (.start rfl)
  obtain ⟨changed, seen⟩ := Bool.and_eq_true_iff.mp test
  constructor
  · obtain ⟨type, member, differs⟩ := any_eq_true.mp changed
    exact ⟨s, reach, type, member, fun agrees => of_decide_eq_true differs agrees.args⟩
  · cases returned : s.returned with
    | none => simp [returned] at seen
    | some resolved =>
      simp only [returned, Option.any_some, Bool.and_eq_true, decide_eq_true_eq, any_eq_true] at seen
      exact ⟨s, reach, resolved.1, resolved.2, returned, seen⟩

end MoonGen.Packet
