import MoonGen.Lib.Defaults
import MoonGen.Packet.Setters

namespace MoonGen.Packet.Named

open Defaults
open Function List Option

/-- The table of named arguments. -/
abbrev Args := String → Option Value

/-- A write of `setDefaultNamedArgs` or of `fill` to the table. -/
abbrev Default := Write String Value.truthy

/-- A statement of the function `fill` of a header. -/
inductive Step where
  /-- a setter with `args[pre .. suffix]` -/
  | set (suffix : String)
  /-- `args[pre .. suffix] = args[pre .. suffix] or default` -/
  | keep (suffix default : String)
  /-- an assignment to a member that takes no argument -/
  | own (member : String)
  deriving DecidableEq

def addressSteps (src dst : String) : List Step := [.keep "Src" src, .keep "Dst" dst, .set "Src", .set "Dst"]

/-- `etherHeader:fill` -/
def etherSteps : List Step := addressSteps "01:02:03:04:05:06" "07:08:09:0a:0b:0c" ++ [.set "Type"]

/-- The arguments of an endpoint of `lacp`. -/
def lacpSteps (endpoint : String) : List Step :=
  ["SysPriority", "Key", "PortPriority", "PortId", "State", "SysId"].map fun suffix => .set (endpoint ++ suffix)

/-- The function `fill` of a header. What `dns` writes behind its header is left out. -/
def fillSteps : Proto → Option SubType → List Step
  | .ethernet, some .vlan => .own "vlan_id" :: .set "Vlan" :: etherSteps
  | .ethernet, some .qinq =>
    .own "inner_vlan_id" :: .set "innerVlanTag" :: .set "outerVlanId" :: .set "outerVlanTag" :: etherSteps
  | .ethernet, _ => etherSteps
  | .ip4, _ =>
    (["Version", "HeaderLength", "TOS", "Length", "ID", "Flags", "Fragment", "TTL", "Protocol",
      "Checksum"].map .set) ++ addressSteps "192.168.1.1" "192.168.1.2"
  | .ip6, _ =>
    (["Version", "TrafficClass", "FlowLabel", "Length", "NextHeader", "TTL"].map .set) ++
      addressSteps "fe80::1" "fe80::2"
  | .arp, _ =>
    (["HardwareAddressType", "ProtoAddressType", "HardwareAddressLength", "ProtoAddressLength",
      "Operation"].map .set) ++
      [.keep "HardwareSrc" "01:02:03:04:05:06", .keep "HardwareDst" "07:08:09:0a:0b:0c", .keep "ProtoSrc" "0.1.2.3",
        .keep "ProtoDst" "4.5.6.7", .set "HardwareSrc", .set "HardwareDst", .set "ProtoSrc", .set "ProtoDst"]
  | .icmp, _ => ["Type", "Code", "Checksum", "MessageBody"].map .set
  | .udp, _ => ["Src", "Dst", "Length", "Checksum"].map .set
  | .tcp, _ =>
    ["Src", "Dst", "SeqNumber", "AckNumber", "DataOffset", "Reserved", "Flags", "Urg", "Ack", "Psh", "Rst", "Syn",
      "Fin", "Window", "Checksum", "UrgentPointer"].map .set
  | .ptp, _ =>
    ["MessageType", "Version", "Length", "Domain", "Reserved", "Flags", "Correction", "Reserved2", "Oui", "Uuid",
      "NodePort", "SequenceID", "Control", "LogMessageInterval"].map .set
  | .vxlan, _ => ["Flags", "Reserved", "VNI", "Reserved2"].map .set
  | .esp, _ => ["SPI", "SQN", "IV"].map .set
  | .ah, _ => ["SPI", "SQN", "IV", "ICV", "NextHeader", "Length"].map .set
  | .dns, _ =>
    (["Id", "Resp", "QueryType", "AuthAnswer", "Truncated", "RecDesired", "RecAvailable", "RCode"].map .set) ++
      .own "hdrflags" :: ["QDCount", "ANCount", "NSCount", "ARCount", "MessageContent"].map .set
  | .ipfix, _ => ["Version", "Length", "ExportTime", "Seq", "ObservationDomain"].map .set
  | .sflow, _ => ["Version", "AgentIp", "SubAgentId", "Seq", "Uptime", "NumSamples"].map .set
  | .lacp, _ =>
    (["subtype", "version", "actor_type", "actor_len", "partner_type", "partner_len", "collector_type",
      "collector_len", "collector_delay"].map .own) ++ lacpSteps "Actor" ++ lacpSteps "Partner"
  | .gre, _ => ["Proto", "Flags"].map .set

variable (S : Setters)

/-- The default for a length: the length of the packet, if it is given, without what stands
before. -/
def lengthDefault (pktLength : Option Value) (pre : String) (before : Nat) : Default :=
  .unset (pre ++ "Length") <|
    if Given Value.truthy pktLength then (pktLength.bind S.arith).map fun x => some (.number (x - before))
    else some none

/-- A default that does not depend on the table, if there is one. -/
def numberDefault (key : String) (value : Option ℚ) : Default := .unset key (some (value.map .number))

/-- The writes of `setDefaultNamedArgs` of the header's protocol. -/
def defaults (pktLength : Option Value) (proto : Proto) (pre : String) (nextHeader : Option Proto)
    (accumulatedLength headerLength : Nat) : List Default :=
  match proto with
  | .ethernet =>
    numberDefault (pre ++ "Type") (nextValue mapNameType nextHeader) ::
      if nextHeader = some .lacp then [.always (pre ++ "Dst") (.string "01:80:c2:00:00:02") rfl] else []
  | .ip4 =>
    [lengthDefault S pktLength pre accumulatedLength,
      numberDefault (pre ++ "Protocol") (nextValue (mapNameProto 0x01) nextHeader),
      numberDefault (pre ++ "HeaderLength") (some (headerLength / 4))]
  | .ip6 =>
    [lengthDefault S pktLength pre (accumulatedLength + 40),
      numberDefault (pre ++ "NextHeader") (nextValue (mapNameProto 0x3a) nextHeader)]
  | .udp =>
    [lengthDefault S pktLength pre accumulatedLength, numberDefault (pre ++ "Dst") (nextPort nextHeader)]
  | .tcp => [numberDefault (pre ++ "DataOffset") (some (headerLength / 4))]
  | .ptp | .ipfix => [lengthDefault S pktLength pre accumulatedLength]
  | _ => []

def setDefaultNamedArgs (proto : Proto) (pre : String) (namedArgs : Args) (nextHeader : Option Proto)
    (accumulatedLength headerLength : Nat) : Option Args :=
  runAll (defaults S (namedArgs "pktLength") proto pre nextHeader accumulatedLength headerLength) namedArgs

/-- The statement `args[key] = args[key] or default`. -/
def keepDefault (pre suffix default : String) : Default := .unset (pre ++ suffix) (some (some (.string default)))

/-- The statements of `fill`, with the table and the bytes of the header. -/
def fill (h : HeaderData) : List Step → Args → List UInt8 → Option (Args × List UInt8)
  | [], args, bytes => some (args, bytes)
  | .set suffix :: steps, args, bytes => (S.set h suffix (args (h.name ++ suffix)) bytes).bind (fill h steps args)
  | .keep suffix default :: steps, args, bytes => fill h steps ((keepDefault h.name suffix default).apply args) bytes
  | .own member :: steps, args, bytes => fill h steps args (S.own h member bytes)

/-- A packet: its headers, each with its bytes. -/
abbrev Pkt := List (HeaderData × List UInt8)

/-- `packetFill`: the table that the caller is left with, and the bytes of the headers. -/
def packetFill : Args → Nat → Pkt → Option (Args × List (List UInt8))
  | namedArgs, _, [] => some (namedArgs, [])
  | namedArgs, accumulatedLength, (h, bytes) :: headers =>
    let nextHeader := headers.head?.map (·.1.proto)
    (setDefaultNamedArgs S h.proto h.name namedArgs nextHeader accumulatedLength h.size).bind fun namedArgs =>
    (fill S h (fillSteps h.proto h.subType) namedArgs bytes).bind fun (namedArgs, bytes) =>
    (packetFill namedArgs (accumulatedLength + h.size) headers).map fun (namedArgs, rest) => (namedArgs, bytes :: rest)

/-- What setters make of the bytes of a header with one table for all of them. -/
def writtenBy (h : HeaderData) (args : Args) : List Step → List UInt8 → Option (List UInt8)
  | [], bytes => some bytes
  | .set suffix :: steps, bytes => (S.set h suffix (args (h.name ++ suffix)) bytes).bind (writtenBy h args steps)
  | .keep .. :: steps, bytes => writtenBy h args steps bytes
  | .own member :: steps, bytes => writtenBy h args steps (S.own h member bytes)

/-- What the setters of a header make of its bytes. -/
def written (h : HeaderData) (args : Args) : List UInt8 → Option (List UInt8) :=
  writtenBy S h args (fillSteps h.proto h.subType)

/-- The writes of the function `fill` of a header. -/
def keeps (pre : String) (steps : List Step) : List Default :=
  steps.filterMap fun step =>
    match step with
    | .keep suffix default => some (keepDefault pre suffix default)
    | _ => none

/-- The defaults of a header before the others of a packet, from the length of the packet. -/
def headerDefaults (pktLength : Option Value) (accumulatedLength : Nat) (h : HeaderData) (headers : Pkt) :
    List Default :=
  defaults S pktLength h.proto h.name (headers.head?.map (·.1.proto)) accumulatedLength h.size

/-- All writes of a header to the table. -/
def headerWrites (pktLength : Option Value) (accumulatedLength : Nat) (h : HeaderData) (headers : Pkt) :
    List Default :=
  headerDefaults S pktLength accumulatedLength h headers ++ keeps h.name (fillSteps h.proto h.subType)

/-- The writes of a packet, header by header. -/
def writes (pktLength : Option Value) : Nat → Pkt → List (List Default)
  | _, [] => []
  | accumulatedLength, (h, _) :: headers =>
    headerWrites S pktLength accumulatedLength h headers ::
      writes pktLength (accumulatedLength + h.size) headers

/-- A table with the length of the packet as the caller sets it. -/
def withLength (args : Args) (pktLength : Option Value) : Args := update args "pktLength" pktLength

/-- The table that `p` leaves. -/
def leftBy (args : Args) (pktLength : Option Value) (p : Pkt) : Args :=
  settle (writes S pktLength 0 p).flatten (withLength args pktLength)

/-- After `p`, `q` is filled as with the table as the caller gave it. -/
def HistoryIndependent (args : Args) (a b : Option Value) (p q : Pkt) : Prop :=
  ∀ left before fresh bytes, packetFill S (withLength args a) 0 p = some (left, before) →
    packetFill S (withLength args b) 0 q = some (fresh, bytes) →
    (packetFill S (withLength left b) 0 q).map Prod.snd = some bytes

/-- A step does not come before one that changes what it reads. -/
def Step.Before : Step → Step → Prop
  | .set suffix, .keep other _ => suffix ≠ other
  | _, _ => True

instance : (x y : Step) → Decidable (x.Before y)
  | .set suffix, .keep other _ => inferInstanceAs (Decidable (suffix ≠ other))
  | .set _, .set _ | .set _, .own _ | .keep .., _ | .own _, _ => isTrue trivial

theorem fillSteps_before (proto : Proto) (subType : Option SubType) :
    (fillSteps proto subType).Pairwise Step.Before := by
  cases proto <;> rcases subType with - | ⟨⟨⟩⟩ <;> decide

theorem exists_of_mem_keeps {pre : String} {steps : List Step} {w : Default} (member : w ∈ keeps pre steps) :
    ∃ suffix default, Step.keep suffix default ∈ steps ∧ w = keepDefault pre suffix default := by
  obtain ⟨step, inside, here⟩ := mem_filterMap.mp member
  cases step with
  | keep suffix default => exact ⟨suffix, default, inside, (Option.some.inj here).symm⟩
  | set suffix => cases here
  | own name => cases here

/-- The setters get the values that the table has in the end. -/
theorem fill_eq (h : HeaderData) {steps : List Step} (before : steps.Pairwise Step.Before) (args : Args)
    (bytes : List UInt8) : fill S h steps args bytes =
      (writtenBy S h (settle (keeps h.name steps) args) steps bytes).map (settle (keeps h.name steps) args, ·) := by
  induction steps generalizing args bytes with
  | nil => rfl
  | cons step steps ih =>
    obtain ⟨first, later⟩ := pairwise_cons.mp before
    cases step with
    | keep suffix default => exact ih later _ bytes
    | own name => exact ih later args _
    | set suffix =>
      have value : settle (keeps h.name steps) args (h.name ++ suffix) = args (h.name ++ suffix) := by
        refine settle_of_leaves args fun w member here => ?_
        obtain ⟨other, default, inside, rfl⟩ := exists_of_mem_keeps member
        exact absurd ((String.append_right_inj _).mp here).symm (first _ inside)
      have same : keeps h.name (.set suffix :: steps) = keeps h.name steps := rfl
      rw [fill, same, writtenBy, value, Option.map_bind]
      exact congrArg (Option.bind _) (funext fun bytes => ih later args bytes)

section PktLength

theorem append_ne_pktLength {suffix : String} (other : suffix.toList.getLast? ≠ some 'h') (nonempty : suffix.toList ≠ [])
    (pre : String) : pre ++ suffix ≠ "pktLength" :=
  fun same => append_length_ne (a := "pkt") other nonempty same.symm

theorem append_headerLength_ne_pktLength (pre : String) : pre ++ "HeaderLength" ≠ "pktLength" :=
  fun same => append_header_ne_pkt pre (append_headerLength_eq_iff (a := "pkt").mp same.symm)

/-- A write leaves the length of the packet as it is. -/
def KeepsLength (pktLength : Option Value) (w : Default) : Prop :=
  w.key = "pktLength" → w.leaves pktLength = pktLength

theorem keepsLength_of_last {pktLength : Option Value} {w : Default} {pre suffix : String} (key : w.key = pre ++ suffix)
    (other : suffix.toList.getLast? ≠ some 'h') (nonempty : suffix.toList ≠ []) : KeepsLength pktLength w :=
  fun here => absurd (key.symm.trans here) (append_ne_pktLength other nonempty pre)

theorem lengthDefault_keepsLength (pktLength : Option Value) (pre : String) (before : Nat) :
    KeepsLength pktLength (lengthDefault S pktLength pre before) := by
  intro _
  rw [lengthDefault, Write.leaves]
  by_cases given : Given Value.truthy pktLength
  · rw [if_pos given]
  · rw [if_neg given, if_neg given]
    rfl

theorem defaults_keepsLength (pktLength : Option Value) (proto : Proto) (pre : String) (nextHeader : Option Proto)
    (accumulatedLength headerLength : Nat) :
    ∀ w ∈ defaults S pktLength proto pre nextHeader accumulatedLength headerLength, KeepsLength pktLength w := by
  have length := lengthDefault_keepsLength S pktLength pre
  have number (suffix : String) (value : Option ℚ) (other : suffix.toList.getLast? ≠ some 'h')
      (nonempty : suffix.toList ≠ []) : KeepsLength pktLength (numberDefault (pre ++ suffix) value) :=
    keepsLength_of_last rfl other nonempty
  have header (value : Option ℚ) : KeepsLength pktLength (numberDefault (pre ++ "HeaderLength") value) :=
    fun here => absurd here (append_headerLength_ne_pktLength pre)
  cases proto with
  | ethernet =>
    refine forall_mem_cons.mpr ⟨number "Type" _ (by decide) (by decide), ?_⟩
    split
    · exact forall_mem_singleton.mpr (@keepsLength_of_last _ _ pre "Dst" rfl (by decide) (by decide))
    · exact forall_mem_nil _
  | ip4 => simp [defaults, length, header, number "Protocol" _ (by decide) (by decide)]
  | ip6 => simp [defaults, length, number "NextHeader" _ (by decide) (by decide)]
  | udp => simp [defaults, length, number "Dst" _ (by decide) (by decide)]
  | tcp => simp [defaults, number "DataOffset" _ (by decide) (by decide)]
  | ptp | ipfix => simp [defaults, length]
  | _ => exact forall_mem_nil _

/-- The end of what `fill` keeps is not that of a length. -/
def Step.NoLength : Step → Prop
  | .keep suffix _ => suffix.toList.getLast? ≠ some 'h' ∧ suffix.toList ≠ []
  | _ => True

instance : (step : Step) → Decidable step.NoLength
  | .keep suffix _ => inferInstanceAs (Decidable (suffix.toList.getLast? ≠ some 'h' ∧ suffix.toList ≠ []))
  | .set _ | .own _ => isTrue trivial

theorem fillSteps_noLength (proto : Proto) (subType : Option SubType) :
    ∀ step ∈ fillSteps proto subType, step.NoLength := by
  cases proto <;> rcases subType with - | ⟨⟨⟩⟩ <;> decide

theorem keeps_keepsLength (pktLength : Option Value) (pre : String) (proto : Proto) (subType : Option SubType) :
    ∀ w ∈ keeps pre (fillSteps proto subType), KeepsLength pktLength w := by
  intro w member
  obtain ⟨suffix, default, inside, rfl⟩ := exists_of_mem_keeps member
  obtain ⟨other, nonempty⟩ := fillSteps_noLength proto subType _ inside
  exact keepsLength_of_last rfl other nonempty

theorem settle_pktLength {args : Args} {pktLength : Option Value} (length : args "pktLength" = pktLength) (acc : Nat)
    (h : HeaderData) (headers : Pkt) :
    settle (headerWrites S pktLength acc h headers) args "pktLength" = pktLength := by
  rw [← length]
  refine settle_of_leaves args fun w member => ?_
  rcases mem_append.mp member with default | kept
  · exact defaults_keepsLength S _ _ _ _ _ _ w default
  · exact keeps_keepsLength _ _ _ _ w kept

end PktLength

variable {S} {args : Args} {pktLength : Option Value} {acc : Nat} {h : HeaderData} {bytes : List UInt8} {headers : Pkt}

/-- A header whose defaults do not fail is set from the table behind all its writes. -/
theorem packetFill_cons {t : Args} (length : args "pktLength" = pktLength)
    (defaulted : runAll (headerDefaults S pktLength acc h headers) args = some t) :
    packetFill S args acc ((h, bytes) :: headers) =
      (written S h (settle (headerWrites S pktLength acc h headers) args) bytes).bind fun bytes =>
        (packetFill S (settle (headerWrites S pktLength acc h headers) args) (acc + h.size) headers).map fun result =>
          (result.1, bytes :: result.2) := by
  rw [headerDefaults] at defaulted
  rw [packetFill, setDefaultNamedArgs, length, defaulted, bind_some,
    fill_eq S h (fillSteps_before h.proto h.subType), bind_map, headerWrites, settle_append, headerDefaults,
    ← eq_settle_of_runAll defaulted]
  rfl

theorem packetFill_cons_cases {u : Args} {blocks : List (List UInt8)} (length : args "pktLength" = pktLength)
    (run : packetFill S args acc ((h, bytes) :: headers) = some (u, blocks)) :
    ∃ t block rest, blocks = block :: rest ∧ runAll (headerDefaults S pktLength acc h headers) args = some t ∧
      written S h (settle (headerWrites S pktLength acc h headers) args) bytes = some block ∧
      packetFill S (settle (headerWrites S pktLength acc h headers) args) (acc + h.size) headers = some (u, rest) := by
  obtain ⟨t, defaulted, -⟩ := bind_eq_some_iff.mp run
  rw [setDefaultNamedArgs, length] at defaulted
  rw [packetFill_cons length defaulted] at run
  obtain ⟨block, set, later⟩ := bind_eq_some_iff.mp run
  obtain ⟨result, filled, same⟩ := map_eq_some_iff.mp later
  obtain ⟨rfl, rfl⟩ := Prod.mk.inj same
  exact ⟨t, block, result.2, rfl, defaulted, set, filled⟩

theorem eq_settle_of_packetFill {p : Pkt} {u : Args} {blocks : List (List UInt8)} (length : args "pktLength" = pktLength)
    (run : packetFill S args acc p = some (u, blocks)) : u = settle (writes S pktLength acc p).flatten args := by
  induction p generalizing args acc blocks with
  | nil =>
    obtain ⟨rfl, -⟩ := Prod.mk.inj (Option.some.inj run)
    rfl
  | cons header headers ih =>
    obtain ⟨-, -, rest, -, -, -, filled⟩ := packetFill_cons_cases length run
    rw [writes, flatten_cons, settle_append]
    exact ih (settle_pktLength S length ..) filled

theorem settle_writes_zero (args : Args) :
    settle ((writes S pktLength acc ((h, bytes) :: headers)).take (0 + 1)).flatten args =
      settle (headerWrites S pktLength acc h headers) args :=
  congrArg (settle · args) (append_nil _)

theorem settle_writes_succ (i : Nat) (args : Args) :
    settle ((writes S pktLength acc ((h, bytes) :: headers)).take (i + 1 + 1)).flatten args =
      settle ((writes S pktLength (acc + h.size) headers).take (i + 1)).flatten
        (settle (headerWrites S pktLength acc h headers) args) :=
  settle_append _ _ _

/-- The bytes of a header depend on the named arguments that its setters take. -/
theorem writtenBy_congr {t t' : Args} {steps : List Step}
    (same : ∀ suffix, .set suffix ∈ steps → t (h.name ++ suffix) = t' (h.name ++ suffix)) (bytes : List UInt8) :
    writtenBy S h t steps bytes = writtenBy S h t' steps bytes := by
  induction steps generalizing bytes with
  | nil => rfl
  | cons step steps ih =>
    have rest := ih fun suffix member => same suffix (mem_cons_of_mem _ member)
    cases step with
    | keep suffix default => exact rest bytes
    | own member => exact rest _
    | set suffix =>
      rw [writtenBy, writtenBy, same suffix (mem_cons_self ..)]
      exact congrArg (Option.bind _) (funext rest)

/-- With more values that count, but none else for the setters, a packet gets the same bytes. -/
theorem packetFill_congr {q : Pkt} {t t' u : Args} {blocks : List (List UInt8)} (covers : Covers Value.truthy t t')
    (length : t "pktLength" = pktLength) (length' : t' "pktLength" = pktLength)
    (run : packetFill S t acc q = some (u, blocks))
    (same : ∀ i h bytes, q[i]? = some (h, bytes) → ∀ suffix, .set suffix ∈ fillSteps h.proto h.subType →
      settle ((writes S pktLength acc q).take (i + 1)).flatten t (h.name ++ suffix) =
        settle ((writes S pktLength acc q).take (i + 1)).flatten t' (h.name ++ suffix)) :
    (packetFill S t' acc q).map Prod.snd = some blocks := by
  induction q generalizing t t' acc blocks with
  | nil =>
    obtain ⟨-, rfl⟩ := Prod.mk.inj (Option.some.inj run)
    rfl
  | cons header headers ih =>
    obtain ⟨h, bytes⟩ := header
    obtain ⟨_, block, rest, rfl, defaulted, set, filled⟩ := packetFill_cons_cases length run
    have later := ih (covers.settle _) (settle_pktLength S length ..) (settle_pktLength S length' ..) filled
      fun i g bytes' place suffix reads => by
        have there := same (i + 1) g bytes' place suffix reads
        rwa [settle_writes_succ, settle_writes_succ] at there
    have here : written S h (settle (headerWrites S pktLength acc h headers) t') bytes = some block := by
      rw [← set]
      refine (writtenBy_congr (fun suffix reads => ?_) bytes).symm
      have first := same 0 h bytes rfl suffix reads
      rwa [settle_writes_zero, settle_writes_zero] at first
    obtain ⟨result, filled', blocks⟩ := map_eq_some_iff.mp later
    rw [packetFill_cons length' (covers.runAll defaulted), here, bind_some, filled', map_some, map_some, blocks]

section Lengths

/-- The setter of a length field, for a number. -/
def setLength (h : HeaderData) (suffix : String) (v : Option Value) (bytes : List UInt8) : Option (List UInt8) :=
  match defaultLength h.proto with
  | some default =>
    if suffix = "Length" then (number v).map fun int => Memory.leBytes 2 (hton16 (int.getD default)).toNat
    else some bytes
  | none => some bytes

/-- Only the length fields are set. -/
def lengthSetters : Setters where
  arith v := match v with
    | .number x => some x
    | _ => none
  set := setLength
  own _ _ bytes := bytes

/-- Both tables have the same lengths. -/
def SameLengths (t : NamedArgs) (args : Args) : Prop := ∀ m, args (m ++ "Length") = (t (m ++ "Length")).map .number

variable {t : NamedArgs}
section
variable (same : SameLengths t args)

include same

theorem SameLengths.setIfUnset (key : String) (value : Option ℚ) :
    SameLengths (t.setIfUnset key value) ((numberDefault key value).apply args) := by
  intro m
  rw [Write.apply]
  by_cases here : m ++ "Length" = key
  · subst here
    rw [setIfUnset_self]
    refine (update_self ..).trans ?_
    rw [numberDefault, Write.leaves, Write.key, same m]
    cases t (m ++ "Length") with
    | none => cases value <;> rfl
    | some x => rfl
  · rw [setIfUnset_of_ne here, ← same m]
    exact update_of_ne here ..

theorem SameLengths.of_ne {w : Default} (other : ∀ m, m ++ "Length" ≠ w.key) :
    SameLengths t (w.apply args) :=
  fun m => (update_of_ne (other m) ..).trans (same m)

theorem SameLengths.lengthDefault (pre : String) (before : Nat) :
    lengthDefault lengthSetters (args "pktLength") pre before =
      numberDefault (pre ++ "Length") ((t "pktLength").map (· - before)) := by
  have pkt : args "pktLength" = (t "pktLength").map .number := same "pkt"
  rw [pkt]
  cases t "pktLength" <;> rfl

theorem SameLengths.setDefaultNamedArgs (proto : Proto) (pre : String) (next : Option Proto) (acc size : Nat) :
    SameLengths (Packet.setDefaultNamedArgs proto pre t next acc size)
      (settle (defaults lengthSetters (args "pktLength") proto pre next acc size) args) := by
  cases proto with
  | ethernet =>
    rw [defaults]
    have typed := same.setIfUnset (pre ++ "Type") (nextValue mapNameType next)
    split
    · exact typed.of_ne fun m => append_length_ne (by decide) (by decide)
    · exact typed
  | ip4 =>
    rw [defaults, same.lengthDefault]
    exact ((same.setIfUnset _ _).setIfUnset _ _).setIfUnset _ _
  | ip6 | udp =>
    rw [defaults, same.lengthDefault]
    exact (same.setIfUnset _ _).setIfUnset _ _
  | ptp | ipfix =>
    rw [defaults, same.lengthDefault]
    exact same.setIfUnset _ _
  | tcp => exact same.setIfUnset _ _
  | _ => exact same

theorem SameLengths.runAll (proto : Proto) (pre : String) (next : Option Proto)
    (acc size : Nat) : runAll (defaults lengthSetters (args "pktLength") proto pre next acc size) args =
      some (settle (defaults lengthSetters (args "pktLength") proto pre next acc size) args) := by
  refine runAll_of_evaluates (fun w member old => ?_) args
  have number (key : String) (value : Option ℚ) : (numberDefault key value).Evaluates old := .inr rfl
  revert w
  cases proto with
  | ethernet =>
    refine forall_mem_cons.mpr ⟨number _ _, fun w member => ?_⟩
    split at member
    · rw [mem_singleton.mp member]
      trivial
    · exact absurd member not_mem_nil
  | ip4 | ip6 | udp | ptp | ipfix => simp [defaults, same.lengthDefault, number]
  | tcp => simp [defaults, number]
  | _ => exact forall_mem_nil _

theorem SameLengths.keeps (h : HeaderData) :
    SameLengths t (settle (keeps h.name (fillSteps h.proto h.subType)) args) := by
  intro m
  rw [← same m]
  refine settle_of_leaves args fun w member here => ?_
  obtain ⟨suffix, default, inside, rfl⟩ := exists_of_mem_keeps member
  obtain ⟨other, nonempty⟩ := fillSteps_noLength h.proto h.subType _ inside
  exact absurd here.symm (append_length_ne other nonempty)
end

theorem writtenBy_lengthSetters {default : ℚ} (own : defaultLength h.proto = some default) (args : Args)
    (steps : List Step) (bytes : List UInt8) : writtenBy lengthSetters h args steps bytes =
      if .set "Length" ∈ steps then
        (number (args (h.name ++ "Length"))).map fun int => Memory.leBytes 2 (hton16 (int.getD default)).toNat
      else some bytes := by
  induction steps generalizing bytes with
  | nil => rfl
  | cons step steps ih =>
    cases step with
    | set suffix =>
      have called : lengthSetters.set h suffix (args (h.name ++ suffix)) bytes = if suffix = "Length" then
          (number (args (h.name ++ suffix))).map fun int => Memory.leBytes 2 (hton16 (int.getD default)).toNat
          else some bytes := by
        show setLength .. = _
        rw [setLength, own]
      rw [writtenBy, called]
      by_cases length : suffix = "Length"
      · subst length
        rw [if_pos rfl, if_pos mem_cons_self]
        cases found : number (args (h.name ++ "Length")) with
        | none => rfl
        | some int =>
          refine (ih _).trans ?_
          rw [found]
          split <;> rfl
      · have other : Step.set "Length" ≠ .set suffix := fun same => length (Step.set.inj same).symm
        rw [if_neg length, bind_some]
        exact (ih bytes).trans (if_congr (by rw [mem_cons, or_iff_right other]) rfl rfl)
    | keep suffix value => exact (ih bytes).trans (if_congr (by simp) rfl rfl)
    | own member => exact (ih bytes).trans (if_congr (by simp) rfl rfl)

theorem writtenBy_of_no_length (missing : defaultLength h.proto = none) (args : Args) (steps : List Step)
    (bytes : List UInt8) : writtenBy lengthSetters h args steps bytes = some bytes := by
  induction steps with
  | nil => rfl
  | cons step steps ih =>
    cases step with
    | set suffix =>
      have called : lengthSetters.set h suffix (args (h.name ++ suffix)) bytes = some bytes := by
        show setLength .. = _
        rw [setLength, missing]
      rw [writtenBy, called]
      exact ih
    | keep | own => exact ih

theorem set_length_mem {proto : Proto} {default : ℚ} (own : defaultLength proto = some default)
    (subType : Option SubType) : Step.set "Length" ∈ fillSteps proto subType := by
  cases proto with
  | ip4 | ip6 | udp | ptp | ipfix => simp [fillSteps]
  | _ => cases own

/-- The lengths of `Packet.packetFill` are those that the setters get. -/
theorem packetFill_lengths (same : SameLengths t args) (headers : List HeaderData) (acc : Nat) :
    ∃ left blocks, packetFill lengthSetters args acc (headers.map fun h => (h, [])) = some (left, blocks) ∧
      (headers.zip blocks).filterMap (fun x => if x.2 = [] then none else some (x.1.name, x.2)) =
        (Packet.packetFill t acc headers).map fun field => (field.1, Memory.leBytes 2 field.2.toNat) := by
  induction headers generalizing t args acc with
  | nil => exact ⟨args, [], rfl, rfl⟩
  | cons h headers ih =>
    have settled := (same.setDefaultNamedArgs h.proto h.name (headers.head?.map (·.proto)) acc h.size).keeps h
    obtain ⟨left, blocks, filled, lengths⟩ := ih settled (acc + h.size)
    have next : (headers.map fun h => (h, ([] : List UInt8))).head?.map (·.1.proto) = headers.head?.map (·.proto) := by
      cases headers <;> rfl
    have defaulted := same.runAll h.proto h.name (headers.head?.map (·.proto)) acc h.size
    rw [← next] at defaulted
    have length := settled h.name
    rw [map_cons, packetFill_cons rfl defaulted, headerWrites, headerDefaults, next, settle_append, filled, written,
      Packet.packetFill]
    cases own : defaultLength h.proto with
    | none =>
      rw [writtenBy_of_no_length own]
      exact ⟨left, [] :: blocks, rfl, lengths⟩
    | some default =>
      have given (x : Option ℚ) : number (x.map .number) = some x := by cases x <;> rfl
      rw [writtenBy_lengthSetters own, if_pos (set_length_mem own h.subType), length, given]
      exact ⟨left, _ :: blocks, rfl, congrArg (_ :: ·) lengths⟩

end Lengths

/-- What `p` leaves in the table covers what the caller gave. -/
theorem covers_leftBy (args : Args) (a b : Option Value) (p : Pkt) :
    Covers Value.truthy (withLength args b) (withLength (leftBy S args a p) b) := by
  intro k given
  by_cases pkt : k = "pktLength"
  · rw [withLength, pkt, update_self] at given ⊢
    exact given
  · rw [withLength, update_of_ne pkt] at given ⊢
    refine covers_settle _ _ k ?_
    rwa [withLength, update_of_ne pkt]

variable (S) in
/-- Each named argument that a setter of `q` takes was given by the caller and `p` does not
replace it, or `p` has no default for it, or the one of `q`. -/
def SameDefaults (args : Args) (a b : Option Value) (p q : Pkt) : Prop :=
  ∀ i h bytes, q[i]? = some (h, bytes) → ∀ suffix, .set suffix ∈ fillSteps h.proto h.subType →
    h.name ++ suffix ≠ "pktLength" →
      Alike Value.truthy (writes S a 0 p).flatten ((writes S b 0 q).take (i + 1)).flatten
        (args (h.name ++ suffix)) (h.name ++ suffix)

/-- Arithmetic on numbers, and no protocol that is not modelled. -/
def plainSetters : Setters := .source
  { arith := fun v => match v with | .number x => some x | _ => none
    set := fun _ _ _ _ => none
    own := fun _ _ bytes => bytes }

def udpPkt : Pkt := [(getHeaderData (.keyword .udp), List.replicate 8 0)]

end MoonGen.Packet.Named
