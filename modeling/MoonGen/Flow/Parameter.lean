import MoonGen.Lib.Lua
import MoonGen.Lib.LuaPattern

namespace MoonGen

open LuaPattern List

/-- `:?([^:]*)` so many times, and `:?(.*)`. -/
def separated : Nat → List (Item Char)
  | 0 => [.opt (only ':'), .star any]
  | n + 1 => .opt (only ':') :: .star (except ':') :: separated n

/-- `^([^:]+)` with three of the optional fields and the rest. -/
def parameterPattern : List (Item Char) := .plus (except ':') :: separated 3

/-- `(.*)/([^/]+)`. -/
def filePattern : List (Item Char) := [.star any, .one (only '/'), .plus (except '/')]

/-- `([^,]+)`. -/
def listPattern : List (Item Char) := [.plus (except ',')]

/-- `^([^=]+)=([^=]+)$`. -/
def assignPattern : List (Item Char) := [.plus (except '='), .one (only '='), .plus (except '=')]

/-- Every other piece of a match, from the second on. -/
def fields : List (List Char) → List (List Char)
  | _ :: field :: pieces => field :: fields pieces
  | _ => []

/-- The value of an option on the command line, `true` where there is none. -/
inductive CliValue
  | flag
  | text (v : List Char)
deriving DecidableEq

structure FlowParameter where
  name : List Char
  file : Option (List Char)
  tx : List Lua.Number
  rx : List Lua.Number
  options : List Char → Option CliValue
  overwrites : List Char

/-- `Invalid device number %q for flow %q.` -/
structure DeviceError where
  num : List Char
  name : List Char

/-- `Invalid parameter: %q.`, which ends the program. -/
inductive ParameterError
  | invalid (s : List Char)

section
variable (lua : Lua.ToNumber)

/-- A round of the loop of `parse_devices`. -/
def parseDevice (devnum : Nat) (name : List Char) (acc : List Lua.Number × List DeviceError) (num : List Char) :
    List Lua.Number × List DeviceError :=
  if num = [] then acc
  else match lua.tonumber num with
    | none => (acc.1, acc.2 ++ [⟨num, name⟩])
    | some n =>
      if n.lt (.ofNat 0) || (Lua.Number.ofNat devnum).le n then (acc.1, acc.2 ++ [⟨num, name⟩])
      else (acc.1 ++ [n], acc.2)

def parseDevices (s : List Char) (devnum : Nat) (name : List Char) : List Lua.Number × List DeviceError :=
  ((gmatch listPattern s).map List.flatten).foldl (parseDevice lua devnum name) ([], [])

/-- An option with its value, or one that is only named. -/
def parseOption (opt : List Char) : List Char × CliValue :=
  match matchWhole assignPattern opt with
  | some [k, _, v] => (k, .text v)
  | _ => (opt, .flag)

/-- A round of the loop over the options. -/
def addOption (options : List Char → Option CliValue) (opt : List Char) : List Char → Option CliValue :=
  if opt = [] then options
  else
    let (k, v) := parseOption opt
    fun key => if key = k then some v else options key

def parseOptions (optstring : List Char) : List Char → Option CliValue :=
  ((gmatch listPattern optstring).map List.flatten).foldl addOption fun _ => none

/-- The file and the name behind it. -/
def splitFile (name : List Char) : Option (List Char × List Char) :=
  match find filePattern name with
  | some [file, _, name] => some (file, name)
  | _ => none

def parseFlow (s : List Char) (devnum : Nat) : Except ParameterError (FlowParameter × List DeviceError) :=
  match matchWhole parameterPattern s with
  | some (name :: pieces) =>
    match fields pieces with
    | [tx, rx, optstring, overwrites] =>
      let split := splitFile name
      let file := split.map Prod.fst
      let name := (split.map Prod.snd).getD name
      let (tx, txErrors) := parseDevices lua tx devnum name
      let (rx, rxErrors) := parseDevices lua rx devnum name
      .ok ({ name, file, tx, rx, options := parseOptions optstring, overwrites }, txErrors ++ rxErrors)
    | _ => .error (.invalid s)
  | _ => .error (.invalid s)

end

/-- The first part of a parameter. -/
def filedName (name : List Char) (file : Option (List Char)) : List Char :=
  match file with
  | none => name
  | some file => file ++ '/' :: name

/-- The parts of a parameter as text, before they are put together with colons. -/
def parameterParts (name : List Char) (file : Option (List Char)) (tx rx : List Nat)
    (options : List (List Char × List Char)) (overwrites : List Char) : List (List Char) :=
  [filedName name file,
    [','].intercalate (tx.map (Nat.toDigits 10)),
    [','].intercalate (rx.map (Nat.toDigits 10)),
    [','].intercalate (options.map fun option => option.1 ++ '=' :: option.2),
    overwrites]

/-- A text without a character. -/
def Lacks (x : Char) (s : List Char) : Prop := ∀ c ∈ s, c ≠ x

instance (x : Char) (s : List Char) : Decidable (Lacks x s) := List.decidableBAll (fun c => c ≠ x) s

theorem Lacks.except {x : Char} {s : List Char} (lacks : Lacks x s) : ∀ c ∈ s, LuaPattern.except x c = true :=
  fun c member => decide_eq_true (lacks c member)

variable {xs : List (List Char)}

/-- The optional fields match nothing at the end of the text. -/
theorem separated_nil {n : Nat} (length : xs.length = n + 1) (empty : ∀ x ∈ xs, x = []) :
    ∃ pieces, run List.isEmpty (separated n) [] = some (pieces, []) ∧ fields pieces = xs := by
  induction n generalizing xs with
  | zero =>
    obtain ⟨x, rfl⟩ := length_eq_one_iff.mp length
    exact ⟨[[], []], rfl, by rw [empty x mem_cons_self]; rfl⟩
  | succ n ih =>
    obtain ⟨x, xs, rfl⟩ := exists_cons_of_length_eq_add_one length
    rw [forall_mem_cons] at empty
    obtain ⟨pieces, found, parts⟩ := ih (Nat.succ.inj length) empty.2
    refine ⟨[] :: [] :: pieces, run_cons rfl (run_cons rfl found), ?_⟩
    rw [fields, parts, empty.1]

/-- Where a field ends, the next one starts with a colon, or the text ends. -/
theorem starts_colon (xs : List (List Char)) : ∀ c ∈ (xs.flatMap fun x => ':' :: x).head?, except ':' c = false := by
  cases xs with
  | nil => exact nofun
  | cons x xs =>
    rintro c ⟨rfl⟩
    rfl

/-- The fields are read back from what is between the colons, also when empty ones at the
end are left out. -/
theorem separated_run {n : Nat} (length : xs.length = n + 1)
    (clean : ∀ x ∈ xs.take n, Lacks ':' x) {k : Nat} (empty : ∀ x ∈ xs.drop k, x = []) :
    ∃ pieces, run List.isEmpty (separated n) ((xs.take k).flatMap fun x => ':' :: x) = some (pieces, []) ∧
      fields pieces = xs := by
  induction n generalizing xs k with
  | zero =>
    cases k with
    | zero => exact separated_nil length empty
    | succ k =>
      obtain ⟨x, rfl⟩ := length_eq_one_iff.mp length
      have last : run List.isEmpty [.star any] (x ++ []) = some ([x], []) := run_star (fun _ _ => rfl) nofun rfl
      rw [take_succ_cons, take_nil, flatMap_cons, flatMap_nil, cons_append]
      exact ⟨_, run_opt_taken rfl last, rfl⟩
  | succ n ih =>
    cases k with
    | zero => exact separated_nil length empty
    | succ k =>
      obtain ⟨x, xs, rfl⟩ := exists_cons_of_length_eq_add_one length
      rw [take_succ_cons, forall_mem_cons] at clean
      obtain ⟨pieces, found, parts⟩ := ih (Nat.succ.inj length) clean.2 empty
      rw [take_succ_cons, flatMap_cons, cons_append]
      refine ⟨_, run_opt_taken rfl (run_star clean.1.except (starts_colon _) found), ?_⟩
      rw [fields, parts]

theorem intercalate_colon (x : List Char) (xs : List (List Char)) :
    [':'].intercalate (x :: xs) = x ++ xs.flatMap fun y => ':' :: y := by
  induction xs generalizing x with
  | nil => rw [intercalate_singleton, flatMap_nil, append_nil]
  | cons y xs ih =>
    rw [intercalate_cons_cons, ih, flatMap_cons, append_assoc]
    rfl

/-- A parameter is split at its first four colons. -/
theorem matchWhole_parameter {name : List Char} (nonempty : name ≠ []) (first : Lacks ':' name)
    (length : xs.length = 4) (clean : ∀ x ∈ xs.take 3, Lacks ':' x) {k : Nat} (empty : ∀ x ∈ xs.drop k, x = []) :
    ∃ pieces, matchWhole parameterPattern ([':'].intercalate (name :: xs.take k)) = some (name :: pieces) ∧
      fields pieces = xs := by
  obtain ⟨pieces, found, parts⟩ := separated_run length clean empty
  refine ⟨pieces, ?_, parts⟩
  rw [matchWhole, intercalate_colon, parameterPattern, run_plus nonempty first.except (starts_colon _) found,
    Option.map_some]

/-- Nothing behind a slash is found in a text without one. -/
theorem run_slash_none {s : List Char} (clean : Lacks '/' s) :
    run (fun _ => true) [.one (only '/'), .plus (except '/')] s = none := by
  cases s with
  | nil => rfl
  | cons c s =>
    rw [run, Item.cuts, only, decide_eq_false (clean c mem_cons_self), if_neg Bool.false_ne_true, findSome?_nil]

theorem splitFile_none {name : List Char} (clean : Lacks '/' name) : splitFile name = none := by
  have absent : find filePattern name = none := by
    refine find_eq_none fun before behind whole => ?_
    rw [Option.eq_none_iff_forall_ne_some]
    rintro ⟨pieces, rest⟩ found
    obtain ⟨inner, fits, _⟩ := run_sound found
    rcases fits with _ | ⟨_, _ | ⟨⟨c, slash, rfl⟩, _⟩⟩
    refine clean c ?_ (of_decide_eq_true slash)
    rw [← whole, ← inner]
    simp
  rw [splitFile, absent]

theorem splitFile_some (file : List Char) {name : List Char} (filled : name ≠ []) (clean : Lacks '/' name) :
    splitFile (file ++ '/' :: name) = some (file, name) := by
  have last : run (fun _ => true) [.plus (except '/')] (name ++ []) = some ([name], []) :=
    run_plus filled clean.except nofun rfl
  rw [append_nil] at last
  have found : run (fun _ => true) filePattern (file ++ '/' :: name) = some ([file, ['/'], name], []) := by
    refine run_star_last (fun _ _ => rfl) (run_one rfl last) fun longer rest nonempty whole => ?_
    obtain ⟨c, longer, rfl⟩ := exists_cons_of_ne_nil nonempty
    have suffix : longer ++ rest = name := (List.cons.inj whole).2
    exact run_slash_none fun d member => clean d (suffix ▸ mem_append_right longer member)
  rw [splitFile, find_of_run found]

/-- The parts of a list without commas in them are read back. -/
theorem gmatch_list (each : ∀ x ∈ xs, x ≠ [] ∧ Lacks ',' x) :
    (gmatch listPattern ([','].intercalate xs)).map List.flatten = xs := by
  have ends : except ',' ',' = false := rfl
  have parts := gmatch_intercalate ends fun x member => ⟨(each x member).1, (each x member).2.except⟩
  rw [listPattern, parts, map_map]
  refine (map_congr_left fun x _ => ?_).trans (map_id xs)
  exact append_nil x

theorem digits_lack {x : Char} (other : x.isDigit = false) (n : Nat) : Lacks x (Nat.toDigits 10 n) := by
  rintro c member rfl
  rw [Nat.isDigit_of_mem_toDigits (by decide) (by decide) member] at other
  cases other

section
variable (lua : Lua.ToNumber) {devnum : Nat} (name : List Char)

theorem parseDevice_digits {n : Nat} (below : n < devnum) (acc : List Lua.Number × List DeviceError) :
    parseDevice lua devnum name acc (Nat.toDigits 10 n) = (acc.1 ++ [.ofNat n], acc.2) := by
  have within : (Lua.Number.ofNat devnum).le (.ofNat n) = false :=
    Bool.eq_false_iff.mpr fun least => absurd (Lua.Number.le_ofNat.mp least) (Nat.not_le.mpr below)
  rw [parseDevice, if_neg Nat.toDigits_ne_nil, lua.decimal]
  simp only [Lua.Number.lt_zero_ofNat, within, Bool.or_self, Bool.false_eq_true, ↓reduceIte]

theorem foldl_parseDevice {ns : List Nat} (below : ∀ n ∈ ns, n < devnum) (acc : List Lua.Number × List DeviceError) :
    (ns.map (Nat.toDigits 10)).foldl (parseDevice lua devnum name) acc = (acc.1 ++ ns.map .ofNat, acc.2) := by
  induction ns generalizing acc with
  | nil => rw [map_nil, map_nil, append_nil]; rfl
  | cons n ns ih =>
    obtain ⟨first, later⟩ := forall_mem_cons.mp below
    rw [map_cons, foldl_cons, parseDevice_digits lua name first, ih later, map_cons, append_assoc]
    rfl

theorem parseDevices_digits {ns : List Nat} (below : ∀ n ∈ ns, n < devnum) :
    parseDevices lua ([','].intercalate (ns.map (Nat.toDigits 10))) devnum name = (ns.map .ofNat, []) := by
  have each : ∀ x ∈ ns.map (Nat.toDigits 10), x ≠ [] ∧ Lacks ',' x :=
    forall_mem_map.mpr fun n _ => ⟨Nat.toDigits_ne_nil, digits_lack rfl n⟩
  rw [parseDevices, gmatch_list each, foldl_parseDevice lua name below, nil_append]

end

theorem parseOption_assign {k v : List Char} (key : k ≠ []) (value : v ≠ []) (keyClean : Lacks '=' k)
    (valueClean : Lacks '=' v) : parseOption (k ++ '=' :: v) = (k, .text v) := by
  have last : run List.isEmpty [.plus (except '=')] (v ++ []) = some ([v], []) :=
    run_plus value valueClean.except nofun rfl
  rw [append_nil] at last
  have stop : ∀ c ∈ ('=' :: v).head?, except '=' c = false := by
    rintro c ⟨rfl⟩
    rfl
  have found : matchWhole assignPattern (k ++ '=' :: v) = some [k, ['='], v] := by
    rw [matchWhole, assignPattern, run_plus key keyClean.except stop (run_one rfl last), Option.map_some]
  rw [parseOption, found]

/-- A text that may be the key or the value of an option. -/
def OptionText (s : List Char) : Prop := s ≠ [] ∧ Lacks ':' s ∧ Lacks ',' s ∧ Lacks '=' s

instance (s : List Char) : Decidable (OptionText s) :=
  inferInstanceAs (Decidable (s ≠ [] ∧ Lacks ':' s ∧ Lacks ',' s ∧ Lacks '=' s))

/-- The options that a list of pairs stands for. -/
def optionMap (options : List (List Char × List Char)) (key : List Char) : Option CliValue :=
  (options.lookup key).map .text

theorem foldl_addOption {options : List (List Char × List Char)}
    (each : ∀ option ∈ options, OptionText option.1 ∧ OptionText option.2) (distinct : (options.map Prod.fst).Nodup)
    (start : List Char → Option CliValue) (key : List Char) :
    (options.map fun option => option.1 ++ '=' :: option.2).foldl addOption start key =
      (optionMap options key).or (start key) := by
  induction options generalizing start with
  | nil => rfl
  | cons option options ih =>
    obtain ⟨k, v⟩ := option
    obtain ⟨⟨⟨keyed, _, _, clean⟩, valued, _, _, clean'⟩, later⟩ := forall_mem_cons.mp each
    rw [map_cons, nodup_cons] at distinct
    have added : addOption start (k ++ '=' :: v) =
        fun key => if key = k then some (.text v) else start key := by
      rw [addOption, if_neg (by simp), parseOption_assign keyed valued clean clean']
    rw [map_cons, foldl_cons, ih later distinct.2, added, optionMap, optionMap, lookup_cons]
    by_cases same : key = k
    · have absent : options.lookup key = none := by
        rw [lookup_eq_none_iff]
        intro option member
        rw [same, bne_iff_ne]
        intro equal
        have key : option.1 ∈ options.map Prod.fst := mem_map_of_mem member
        exact distinct.1 (equal ▸ key)
      rw [absent, same, beq_self_eq_true]
      simp only [↓reduceIte]
      rfl
    · simp only [same, beq_eq_false_iff_ne.mpr same, ↓reduceIte]

theorem parseOptions_assign {options : List (List Char × List Char)}
    (each : ∀ option ∈ options, OptionText option.1 ∧ OptionText option.2)
    (distinct : (options.map Prod.fst).Nodup) :
    parseOptions ([','].intercalate (options.map fun option => option.1 ++ '=' :: option.2)) = optionMap options := by
  have parts : ∀ x ∈ options.map fun option => option.1 ++ '=' :: option.2, x ≠ [] ∧ Lacks ',' x := by
    refine forall_mem_map.mpr fun option member => ⟨by simp, ?_⟩
    obtain ⟨⟨_, _, key, _⟩, _, _, value, _⟩ := each option member
    refine forall_mem_append.mpr ⟨key, forall_mem_cons.mpr ⟨by decide, value⟩⟩
  funext key
  rw [parseOptions, gmatch_list parts, foldl_addOption each distinct, Option.or_none]

/-- What a parameter may be made of. -/
structure ParameterValid (name : List Char) (file : Option (List Char)) (tx rx : List Nat)
    (options : List (List Char × List Char)) (devnum : Nat) : Prop where
  nameText : name ≠ [] ∧ Lacks ':' name ∧ Lacks '/' name
  fileText : ∀ path ∈ file, Lacks ':' path
  txBelow : ∀ n ∈ tx, n < devnum
  rxBelow : ∀ n ∈ rx, n < devnum
  optionTexts : ∀ option ∈ options, OptionText option.1 ∧ OptionText option.2
  distinctKeys : (options.map Prod.fst).Nodup

theorem intercalate_lacks {x sep : Char} (other : sep ≠ x) (each : ∀ y ∈ xs, Lacks x y) :
    Lacks x ([sep].intercalate xs) := by
  induction xs with
  | nil => exact forall_mem_nil _
  | cons y xs ih =>
    obtain ⟨first, later⟩ := forall_mem_cons.mp each
    cases xs with
    | nil => rwa [intercalate_singleton]
    | cons z xs =>
      rw [intercalate_cons_cons]
      refine forall_mem_append.mpr ⟨forall_mem_append.mpr ⟨first, ?_⟩, ih later⟩
      exact forall_mem_singleton.mpr other

section
variable {name : List Char} {file : Option (List Char)} {tx rx : List Nat} {options : List (List Char × List Char)}
  {devnum : Nat}

theorem ParameterValid.filedName (valid : ParameterValid name file tx rx options devnum) :
    filedName name file ≠ [] ∧ Lacks ':' (filedName name file) ∧
      splitFile (filedName name file) = file.map fun path => (path, name) := by
  obtain ⟨nonempty, clean, slash⟩ := valid.nameText
  cases file with
  | none => exact ⟨nonempty, clean, splitFile_none slash⟩
  | some path =>
    refine ⟨by simp [MoonGen.filedName], ?_, splitFile_some path nonempty slash⟩
    exact forall_mem_append.mpr ⟨valid.fileText path rfl, forall_mem_cons.mpr ⟨by decide, clean⟩⟩

/-- The parts between the first and the last have no colons. -/
theorem ParameterValid.lists_lack (valid : ParameterValid name file tx rx options devnum) :
    Lacks ':' ([','].intercalate (tx.map (Nat.toDigits 10))) ∧
      Lacks ':' ([','].intercalate (rx.map (Nat.toDigits 10))) ∧
      Lacks ':' ([','].intercalate (options.map fun option => option.1 ++ '=' :: option.2)) := by
  refine ⟨intercalate_lacks (by decide) ?_, intercalate_lacks (by decide) ?_, intercalate_lacks (by decide) ?_⟩
  · exact forall_mem_map.mpr fun n _ => digits_lack rfl n
  · exact forall_mem_map.mpr fun n _ => digits_lack rfl n
  · refine forall_mem_map.mpr fun option member => ?_
    obtain ⟨⟨_, key, _⟩, _, value, _⟩ := valid.optionTexts option member
    exact forall_mem_append.mpr ⟨key, forall_mem_cons.mpr ⟨by decide, value⟩⟩

/-- A parameter is read back from its text, with any empty parts at the end left out. -/
theorem parameter_round_trip (lua : Lua.ToNumber) (valid : ParameterValid name file tx rx options devnum)
    (overwrites : List Char) (k : Nat) (named : 1 ≤ k)
    (empty : ∀ part ∈ (parameterParts name file tx rx options overwrites).drop k, part = []) :
    parseFlow lua ([':'].intercalate ((parameterParts name file tx rx options overwrites).take k)) devnum =
      .ok ({ name, file, tx := tx.map .ofNat, rx := rx.map .ofNat, options := optionMap options, overwrites }, []) := by
  obtain ⟨nonempty, clean, split⟩ := valid.filedName
  obtain ⟨txClean, rxClean, optClean⟩ := valid.lists_lack
  obtain ⟨k, rfl⟩ : ∃ j, k = j + 1 := ⟨k - 1, by omega⟩
  have lists : ∀ x ∈ [[','].intercalate (tx.map (Nat.toDigits 10)), [','].intercalate (rx.map (Nat.toDigits 10)),
      [','].intercalate (options.map fun option => option.1 ++ '=' :: option.2), overwrites].take 3, Lacks ':' x :=
    forall_mem_cons.mpr ⟨txClean, forall_mem_cons.mpr ⟨rxClean, forall_mem_singleton.mpr optClean⟩⟩
  obtain ⟨pieces, found, parts⟩ := matchWhole_parameter nonempty clean rfl lists empty
  have back : ((file.map fun path => (path, name)).map Prod.snd).getD (filedName name file) = name := by
    cases file <;> rfl
  have path : (file.map fun path => (path, name)).map Prod.fst = file := by
    cases file <;> rfl
  have whole : (parameterParts name file tx rx options overwrites).take (k + 1) = filedName name file ::
      [[','].intercalate (tx.map (Nat.toDigits 10)), [','].intercalate (rx.map (Nat.toDigits 10)),
        [','].intercalate (options.map fun option => option.1 ++ '=' :: option.2), overwrites].take k := rfl
  rw [parseFlow, whole, found]
  simp only [parts, split, back, path, parseDevices_digits lua name valid.txBelow,
    parseDevices_digits lua name valid.rxBelow, parseOptions_assign valid.optionTexts valid.distinctKeys,
    append_nil]

end

/-- Texts of digits only are numbers. -/
def decimalOnly : Lua.ToNumber where
  tonumber s := if s.all Char.isDigit then some (.ofNat (Nat.ofDigitChars 10 s 0)) else none
  decimal n := by
    have digits : (Nat.toDigits 10 n).all Char.isDigit = true :=
      all_eq_true.mpr fun c member => Nat.isDigit_of_mem_toDigits (by decide) (by decide) member
    rw [if_pos digits, Nat.ofDigitChars_toDigits (by decide) (by decide)]

/-- A flow of a file with two devices to send from, an option and a colon in the overwrites,
and one without anything but its name. -/
theorem parameter_round_trip_load :
    (∃ parameter, parseFlow decimalOnly "flows/a.lua/load:0,1::rate=10:ip4Src=a:b".toList 2 = .ok (parameter, []) ∧
      parameter.file = some "flows/a.lua".toList ∧ parameter.tx = [.ofNat 0, .ofNat 1] ∧
      parameter.overwrites = "ip4Src=a:b".toList) ∧
    ∃ parameter, parseFlow decimalOnly "load".toList 2 = .ok (parameter, []) := by
  have first : ParameterValid "load".toList (some "flows/a.lua".toList) [0, 1] [] [("rate".toList, "10".toList)] 2 :=
    ⟨by decide, by rintro path ⟨rfl⟩; decide, by decide, by decide, by decide, by decide⟩
  have second : ParameterValid "load".toList none [] [] [] 2 :=
    ⟨by decide, nofun, nofun, nofun, nofun, by decide⟩
  exact ⟨⟨_, parameter_round_trip decimalOnly first "ip4Src=a:b".toList 5 (by decide) nofun, rfl, rfl, rfl⟩,
    ⟨_, parameter_round_trip decimalOnly second [] 1 (by decide) (by decide)⟩⟩

/-- Without a name there is no flow, even where the other parts are as they should be. -/
theorem parameter_without_name :
    parseFlow decimalOnly ([':'].intercalate (parameterParts [] none [0] [] [] [])) 1 =
      .error (.invalid ":0:::".toList) ∧
    ∃ parameter, parseFlow decimalOnly ([':'].intercalate (parameterParts [] (some "a/b".toList) [0] [] [] [])) 1 =
      .ok (parameter, []) ∧ parameter.name = "b".toList ∧ parameter.file = some "a".toList :=
  ⟨rfl, _, rfl, rfl, rfl⟩

end MoonGen
