import MoonGen.Lib.Double
import MoonGen.Lib.LuaPattern

namespace MoonGen

open LuaPattern
open Lua (Number)
open List Nat

/-- The errors of Lua that the parsers of options can raise. -/
inductive LuaRaise
  | arithmeticOnNil
  | indexNil
  | formatNil
deriving DecidableEq, Repr

/-- `units.time`, in seconds. -/
def timeUnit : List Char → Option Number
  | [] => some (.ofNat 1)
  | ['m', 's'] => some (.ofNat 1 / .ofNat 1000)
  | ['s'] => some (.ofNat 1)
  | ['m'] => some (.ofNat 60)
  | ['h'] => some (.ofNat 3600)
  | _ => none

def timeError : String := "Invalid time unit. Can be one of 'ms', 's', 'm', 'h'."

/-- `units.size`. -/
def sizeUnit : List Char → Option Nat
  | [] => some 1
  | ['k'] => some (10 ^ 3)
  | ['k', 'i'] => some (2 ^ 10)
  | ['m'] => some (10 ^ 6)
  | ['m', 'i'] => some (2 ^ 20)
  | ['g'] => some (10 ^ 9)
  | ['g', 'i'] => some (2 ^ 30)
  | _ => none

def sizeError : String := "Invalid size unit. Can be <k|m|g>[i]<bit|b|p>"

/-- The value of digits with a point among them. -/
def decimalValue (num : List Char) : ℚ :=
  let int := num.takeWhile (except '.')
  let frac := (num.dropWhile (except '.')).drop 1
  (Nat.ofDigitChars 10 int 0 : ℚ) + (Nat.ofDigitChars 10 frac 0 : ℚ) / 10 ^ frac.length

/-- The function `tonumber` on such a text. -/
def tonumber (num : List Char) : Number := .ofRat (decimalValue num)

/-- The parts of `^(%d+%.?%d*)(%a*)/?(%a*)$`. -/
def rateCaptures (rstring : List Char) : Option (List Char × List Char × List Char) :=
  match matchWhole [.plus Char.isDigit, .opt (only '.'), .star Char.isDigit, .star Char.isAlpha, .opt (only '/'),
    .star Char.isAlpha] rstring with
  | some [int, dot, frac, unit, _, time] => some (int ++ dot ++ frac, unit, time)
  | _ => none

/-- The parts of `^(%d+%.?%d*)(%a+)$`. -/
def limitCaptures (lstring : List Char) : Option (List Char × List Char) :=
  match matchWhole [.plus Char.isDigit, .opt (only '.'), .star Char.isDigit, .plus Char.isAlpha] lstring with
  | some [int, dot, frac, unit] => some (int ++ dot ++ frac, unit)
  | _ => none

/-- `string.sub(s, 1, -n - 1)`. -/
def dropEnd (n : Nat) (s : List Char) : List Char := s.take (s.length - n)

/-- Arithmetic on a value that may be `nil`. -/
def arithmetic (x : Option Number) (f : Number → Number) : Except LuaRaise Number :=
  match x with
  | none => .error .arithmeticOnNil
  | some x => .ok (f x)

/-- The bits of a size unit, in the words of both parsers. Without a suffix that they know
there is none, and the value itself may be `nil`. -/
def unitBits (unit : List Char) (psize : Number) : Except LuaRaise (Option (Option Number)) :=
  if unit = [] then .ok (some ((sizeUnit ['m']).map .ofNat))
  else if ['b', 'i', 't'].isSuffixOf unit then .ok (some ((sizeUnit (dropEnd 3 unit)).map .ofNat))
  else if ['b'].isSuffixOf unit then do
    let bits ← arithmetic ((sizeUnit (dropEnd 1 unit)).map .ofNat) (· * .ofNat 8)
    return some (some bits)
  else if ['p'].isSuffixOf unit then do
    let bits ← arithmetic ((sizeUnit (dropEnd 1 unit)).map .ofNat) (· * psize * .ofNat 8)
    return some (some bits)
  else .ok none

/-- `errors:assert` of a value that is `nil`. -/
def recordError (message : Option String) : Except LuaRaise (List String) :=
  match message with
  | none => .error .formatNil
  | some message => .ok [message]

def parseRate (rstring : List Char) (psize : Number) : Except LuaRaise (Option Number × Option String) :=
  match rateCaptures rstring with
  | none => .ok (none, some "Invalid format. Should be '<number>[unit][/<time>]'.")
  | some (num, unit, time) =>
    match timeUnit time with
    | none => .ok (none, some timeError)
    | some time => do
      match ← unitBits (Lua.lower unit) psize with
      | none => return (none, some sizeError)
      | some unit =>
        let unit ← arithmetic unit (· / .ofNat (10 ^ 6))
        return (some (tonumber num * unit / time), none)

/-- The parser of the option `rate` on a string, with the messages for the error handler. -/
def rateOption (rate : List Char) (psize : Number) : Except LuaRaise (Option Number × List String) := do
  match ← parseRate rate psize with
  | (some cbr, _) => return (some cbr, [])
  | (none, message) =>
    let log ← recordError message
    return (none, log)

/-- The two values that `_parse_limit` returns: `nil` and a message, or a number and its unit. -/
inductive LimitResult
  | failed (message : Option String)
  | found (num : Number) (unit : Option Number)

def parseDataLimit (lstring : List Char) (psize : Number) : Except LuaRaise LimitResult :=
  match limitCaptures lstring with
  | none => .ok (.failed (some "Invalid format. Should be '<number><unit>'."))
  | some (num, unit) => do
    match ← unitBits (Lua.lower unit) psize with
    -- `unit.sizeError` asks a string for a method
    | none => return .failed none
    | some unit => return .found (tonumber num) unit

def dataLimitOption (limit : List Char) (psize : Number) : Except LuaRaise (Option Number × List String) := do
  match ← parseDataLimit limit psize with
  | .failed message =>
    let log ← recordError message
    return (none, log)
  | .found num unit =>
    let packets ← arithmetic unit fun unit => (num * unit / (psize * .ofNat 8)).ceil
    return (some packets, [])

def parseTimeLimit (lstring : List Char) : Except LuaRaise LimitResult :=
  match limitCaptures lstring with
  | none => .ok (.failed (some "Invalid format. Should be '<number><unit>'."))
  | some (num, unit) =>
    match timeUnit (Lua.lower unit) with
    -- `unit.timeError` indexes the unit that is not there
    | none => .error .indexNil
    | some unit => .ok (.found (tonumber num) (some unit))

def timeLimitOption (limit : List Char) : Except LuaRaise (Option Number × List String) := do
  match ← parseTimeLimit limit with
  | .failed message =>
    let log ← recordError message
    return (none, log)
  | .found num unit =>
    let seconds ← arithmetic unit fun unit => num * unit
    return (some seconds, [])

/-- Digits, and behind a point more of them. -/
def Numeral (num : List Char) : Prop :=
  ∃ int dot frac, num = int ++ dot ++ frac ∧ int ≠ [] ∧ (∀ c ∈ int, c.isDigit = true) ∧
    (dot = [] ∧ frac = [] ∨ dot = ['.']) ∧ ∀ c ∈ frac, c.isDigit = true

def Letters (s : List Char) : Prop := ∀ c ∈ s, c.isAlpha = true

inductive SizeSuffix
  | bit
  | b
  | p

namespace SizeSuffix

def text : SizeSuffix → List Char
  | bit => ['b', 'i', 't']
  | b => ['b']
  | p => ['p']

/-- Bits, bytes, and packets of some size. -/
def size (psize : Nat) : SizeSuffix → Nat
  | bit => 1
  | b => 8
  | p => psize * 8

/-- What the parsers make of the size in front of the suffix. -/
def bits (psize factor : Number) : SizeSuffix → Number
  | bit => factor
  | b => factor * .ofNat 8
  | p => factor * psize * .ofNat 8

end SizeSuffix

/-- A time unit stands for so many seconds. -/
def seconds : List Char → Option ℚ
  | [] => some 1
  | ['m', 's'] => some (1 / 1000)
  | ['s'] => some 1
  | ['m'] => some 60
  | ['h'] => some 3600
  | _ => none

/-- A size unit stands for so many bits. -/
def SizeDenotes (unit : List Char) (psize bits : Nat) : Prop :=
  ∃ (pre : List Char) (factor : Nat) (suffix : SizeSuffix),
    Lua.lower unit = pre ++ suffix.text ∧ sizeUnit pre = some factor ∧ bits = factor * suffix.size psize

/-- A string is a number, letters, and behind a slash more letters. -/
structure RateParts (s num unit time : List Char) : Prop where
  numeral : Numeral num
  letters : Letters unit
  behind : Letters time
  whole : ∃ slash, (slash = [] ∧ time = [] ∨ slash = ['/']) ∧ s = num ++ unit ++ slash ++ time

/-- A string is a number and letters. -/
structure LimitParts (s num unit : List Char) : Prop where
  numeral : Numeral num
  letters : Letters unit
  nonempty : unit ≠ []
  whole : s = num ++ unit

/-- A number, a size unit (megabit where there is none) and behind a slash a time unit
(second where there is none), as a rate in megabit per second. -/
def RateDenotes (s : List Char) (psize : Nat) (q : ℚ) : Prop :=
  ∃ num unit time bits sec, RateParts s num unit time ∧ (unit = [] ∧ bits = 10 ^ 6 ∨ SizeDenotes unit psize bits) ∧
    seconds time = some sec ∧ q = decimalValue num * bits / 10 ^ 6 / sec

/-- A number and a size unit as packets, of which the last one may be a part. -/
def DataDenotes (s : List Char) (psize : Nat) (q : ℚ) : Prop :=
  ∃ num unit bits, LimitParts s num unit ∧ SizeDenotes unit psize bits ∧ q = decimalValue num * bits / (psize * 8)

/-- A number and a time unit as seconds. -/
def TimeDenotes (s : List Char) (q : ℚ) : Prop :=
  ∃ num unit sec, LimitParts s num unit ∧ seconds (Lua.lower unit) = some sec ∧ q = decimalValue num * sec

/-- A parser returns what the string denotes, or `nil` with one message where it denotes
nothing. -/
def Answers (result : Except LuaRaise (Option Number × List String)) (denotes : ℚ → Prop)
    (returned : Number → ℚ → Prop) : Prop :=
  (∃ v q, result = .ok (some v, []) ∧ denotes q ∧ returned v q) ∨
    ∃ message, result = .ok (none, [message]) ∧ ∀ q, ¬ denotes q

/-- A letter does not go on with a numeral. -/
theorem letter_ends {c : Char} (letter : c.isAlpha = true) : c.isDigit = false ∧ only '.' c = false := by
  constructor
  · delta Char.isAlpha Char.isUpper Char.isLower at letter
    simp only [Char.isDigit, ge_iff_le, UInt32.le_iff_toNat_le,
      Char.reduceVal, UInt32.reduceToNat, Char.toNat_val, Bool.decide_and, Bool.or_eq_true, Bool.and_eq_true,
      decide_eq_true_eq, Bool.and_eq_false_imp, decide_eq_false_iff_not] at letter ⊢
    omega
  · refine decide_eq_false ?_
    rintro rfl
    cases letter

section
variable {s num unit slash time : List Char}

/-- Behind the items of a numeral the match goes on where the numeral ends. -/
theorem run_numeral {accept : List Char → Bool} {items : List (Item Char)} {b rest : List Char}
    {pieces : List (List Char)} (numeral : Numeral num)
    (stop : ∀ c ∈ b.head?, c.isDigit = false ∧ only '.' c = false) (next : run accept items b = some (pieces, rest)) :
    ∃ int dot frac, int ++ dot ++ frac = num ∧
      run accept (.plus Char.isDigit :: .opt (only '.') :: .star Char.isDigit :: items) (num ++ b) =
        some (int :: dot :: frac :: pieces, rest) := by
  obtain ⟨int, dot, frac, rfl, nonempty, digits, point, more⟩ := numeral
  refine ⟨int, dot, frac, rfl, ?_⟩
  have behind := run_star more (fun c head => (stop c head).1) next
  rw [append_assoc, append_assoc]
  rcases point with ⟨rfl, rfl⟩ | rfl
  · exact run_plus nonempty digits (fun c head => (stop c head).1)
      (run_opt_left (fun c head => (stop c head).2) behind)
  · refine run_plus nonempty digits (fun c head => ?_) (run_opt_taken rfl behind)
    cases head
    rfl

/-- The parts of a rate are found again in the string they make up. -/
theorem rateCaptures_of_parts (numeral : Numeral num) (word : Letters unit) (suffix : Letters time)
    (bar : slash = [] ∧ time = [] ∨ slash = ['/']) :
    rateCaptures (num ++ unit ++ slash ++ time) = some (num, unit, time) := by
  have last : run List.isEmpty [.star Char.isAlpha] (time ++ []) = some ([time], []) := run_star suffix nofun rfl
  rw [append_nil] at last
  have behind : run List.isEmpty [.opt (only '/'), .star Char.isAlpha] (slash ++ time) = some ([slash, time], []) := by
    rcases bar with ⟨rfl, rfl⟩ | rfl
    · rfl
    · exact run_opt_taken rfl last
  have front : ∀ c ∈ (slash ++ time).head?, c = '/' := by
    rcases bar with ⟨rfl, rfl⟩ | rfl
    · nofun
    · rintro c ⟨rfl⟩
      rfl
  have units : run List.isEmpty [.star Char.isAlpha, .opt (only '/'), .star Char.isAlpha] (unit ++ (slash ++ time)) =
      some ([unit, slash, time], []) := by
    refine run_star word (fun c head => ?_) behind
    rw [front c head]
    rfl
  have stop : ∀ c ∈ (unit ++ (slash ++ time)).head?, c.isDigit = false ∧ only '.' c = false := by
    intro c head
    cases unit with
    | nil =>
      rw [front c head]
      exact ⟨rfl, rfl⟩
    | cons d unit =>
      cases head
      exact letter_ends (word c mem_cons_self)
  obtain ⟨int, dot, frac, rfl, found⟩ := run_numeral numeral stop units
  rw [rateCaptures, matchWhole, append_assoc (_ ++ unit), append_assoc (int ++ dot ++ frac), found]
  rfl

theorem limitCaptures_of_parts (numeral : Numeral num) (word : Letters unit) (nonempty : unit ≠ []) :
    limitCaptures (num ++ unit) = some (num, unit) := by
  have last : run List.isEmpty [.plus Char.isAlpha] (unit ++ []) = some ([unit], []) := run_plus nonempty word nofun rfl
  rw [append_nil] at last
  have stop : ∀ c ∈ unit.head?, c.isDigit = false ∧ only '.' c = false :=
    fun c head => letter_ends (word c (mem_of_mem_head? head))
  obtain ⟨int, dot, frac, rfl, found⟩ := run_numeral numeral stop last
  rw [limitCaptures, matchWhole, found]
  rfl

/-- The pieces for the items of a numeral make up one. -/
theorem numeral_of_fits {int dot frac : List Char} (digits : (Item.plus Char.isDigit).Fits int)
    (point : (Item.opt (only '.')).Fits dot) (more : (Item.star Char.isDigit).Fits frac) :
    Numeral (int ++ dot ++ frac) := by
  rcases fits_opt_only point with rfl | rfl
  · refine ⟨int ++ frac, [], [], by simp, ?_, ?_, .inl ⟨rfl, rfl⟩, nofun⟩
    · exact fun empty => digits.1 (append_eq_nil_iff.mp empty).1
    · exact forall_mem_append.mpr ⟨digits.2, more⟩
  · exact ⟨int, ['.'], frac, rfl, digits.1, digits.2, .inr rfl, more⟩

/-- The parts of a rate make up the string. -/
theorem rateCaptures_sound (found : rateCaptures s = some (num, unit, time)) : RateParts s num unit time := by
  have pieces := found
  rw [rateCaptures] at pieces
  split at pieces
  · rename_i int dot frac letters slash rest matched
    obtain ⟨rfl, rfl, rfl⟩ : int ++ dot ++ frac = num ∧ letters = unit ∧ rest = time := by
      simpa using pieces
    obtain ⟨whole, fits⟩ := matchWhole_sound matched
    rcases fits with _ | ⟨digits, _ | ⟨point, _ | ⟨more, _ | ⟨word, _ | ⟨bar, _ | ⟨suffix, _⟩⟩⟩⟩⟩⟩
    have numeral := numeral_of_fits digits point more
    have parts : s = int ++ dot ++ frac ++ letters ++ slash ++ rest := by
      rw [← whole]
      simp
    refine ⟨numeral, word, suffix, slash, ?_, parts⟩
    rcases fits_opt_only bar with rfl | slashed
    · -- without a slash the letters of the time are letters of the unit as well
      have longer : Letters (letters ++ rest) := forall_mem_append.mpr ⟨word, suffix⟩
      have again : rateCaptures (int ++ dot ++ frac ++ (letters ++ rest) ++ [] ++ []) =
          some (int ++ dot ++ frac, letters ++ rest, []) :=
        rateCaptures_of_parts numeral longer nofun (.inl ⟨rfl, rfl⟩)
      have same : int ++ dot ++ frac ++ (letters ++ rest) ++ [] ++ [] = s := by
        rw [parts]
        simp
      rw [same, found] at again
      exact .inl ⟨rfl, (Prod.mk.inj (Prod.mk.inj (Option.some.inj again)).2).2⟩
    · exact .inr slashed
  · cases pieces

theorem limitCaptures_sound (found : limitCaptures s = some (num, unit)) : LimitParts s num unit := by
  rw [limitCaptures] at found
  split at found
  · rename_i int dot frac letters matched
    obtain ⟨rfl, rfl⟩ : int ++ dot ++ frac = num ∧ letters = unit := by
      simpa using found
    obtain ⟨whole, fits⟩ := matchWhole_sound matched
    rcases fits with _ | ⟨digits, _ | ⟨point, _ | ⟨more, _ | ⟨word, _⟩⟩⟩⟩
    refine ⟨numeral_of_fits digits point more, word.2, word.1, ?_⟩
    rw [← whole]
    simp
  · cases found

theorem RateParts.captures (parts : RateParts s num unit time) : rateCaptures s = some (num, unit, time) := by
  obtain ⟨numeral, word, suffix, slash, bar, rfl⟩ := parts
  exact rateCaptures_of_parts numeral word suffix bar

theorem LimitParts.captures (parts : LimitParts s num unit) : limitCaptures s = some (num, unit) := by
  obtain ⟨numeral, word, nonempty, rfl⟩ := parts
  exact limitCaptures_of_parts numeral word nonempty

end

/-- What is in front of the suffix of a unit, if it has one. -/
def sizePrefix (unit : List Char) : Option (List Char) :=
  if ['b', 'i', 't'].isSuffixOf unit then some (dropEnd 3 unit)
  else if ['b'].isSuffixOf unit || ['p'].isSuffixOf unit then some (dropEnd 1 unit)
  else none

theorem dropEnd_append (s t : List Char) : dropEnd t.length (s ++ t) = s := by
  rw [dropEnd, length_append, Nat.add_sub_cancel, take_left]

/-- A unit behind the tests of the parsers: no suffix, a suffix behind a size, or a suffix
behind something that is not in the table. -/
theorem unitBits_cases {unit : List Char} (word : unit ≠ []) (psize : Number) :
    (sizePrefix unit = none ∧ unitBits unit psize = .ok none) ∨
    (∃ pre factor, ∃ suffix : SizeSuffix, unit = pre ++ suffix.text ∧ sizePrefix unit = some pre ∧
      sizeUnit pre = some factor ∧ unitBits unit psize = .ok (some (some (suffix.bits psize (.ofNat factor))))) ∨
    ∃ pre, sizePrefix unit = some pre ∧ sizeUnit pre = none ∧
      (unitBits unit psize = .ok (some none) ∨ unitBits unit psize = .error .arithmeticOnNil) := by
  unfold sizePrefix unitBits
  rw [if_neg word]
  by_cases bit : ['b', 'i', 't'].isSuffixOf unit
  · obtain ⟨pre, rfl⟩ := isSuffixOf_iff_suffix.mp bit
    have front : dropEnd 3 (pre ++ ['b', 'i', 't']) = pre := dropEnd_append pre ['b', 'i', 't']
    rw [if_pos bit, if_pos bit, front]
    cases known : sizeUnit pre with
    | none => exact .inr (.inr ⟨pre, rfl, known, .inl rfl⟩)
    | some factor => exact .inr (.inl ⟨pre, factor, .bit, rfl, rfl, known, rfl⟩)
  rw [if_neg bit, if_neg bit]
  by_cases byte : ['b'].isSuffixOf unit
  · obtain ⟨pre, rfl⟩ := isSuffixOf_iff_suffix.mp byte
    have front : dropEnd 1 (pre ++ ['b']) = pre := dropEnd_append pre ['b']
    rw [if_pos (by rw [byte, Bool.true_or]), if_pos byte, front]
    cases known : sizeUnit pre with
    | none => exact .inr (.inr ⟨pre, rfl, known, .inr rfl⟩)
    | some factor => exact .inr (.inl ⟨pre, factor, .b, rfl, rfl, known, rfl⟩)
  by_cases packet : ['p'].isSuffixOf unit
  · obtain ⟨pre, rfl⟩ := isSuffixOf_iff_suffix.mp packet
    have front : dropEnd 1 (pre ++ ['p']) = pre := dropEnd_append pre ['p']
    rw [if_pos (by rw [packet, Bool.or_true]), if_neg byte, if_pos packet, front]
    cases known : sizeUnit pre with
    | none => exact .inr (.inr ⟨pre, rfl, known, .inr rfl⟩)
    | some factor => exact .inr (.inl ⟨pre, factor, .p, rfl, rfl, known, rfl⟩)
  · rw [if_neg byte, if_neg packet, if_neg (by rw [Bool.or_eq_true, not_or]; exact ⟨byte, packet⟩)]
    exact .inl ⟨rfl, rfl⟩

theorem lower_ne_nil {unit : List Char} (nonempty : unit ≠ []) : Lua.lower unit ≠ [] :=
  mt map_eq_nil_iff.mp nonempty

theorem SizeDenotes.sizePrefix_ne_none {unit : List Char} {psize bits : Nat} (denotes : SizeDenotes unit psize bits) :
    sizePrefix (Lua.lower unit) ≠ none := by
  obtain ⟨pre, factor, suffix, word, _, _⟩ := denotes
  have ends : suffix.text.isSuffixOf (Lua.lower unit) := isSuffixOf_iff_suffix.mpr ⟨pre, word.symm⟩
  intro bare
  rw [sizePrefix] at bare
  split_ifs at bare with bit other
  cases suffix with
  | bit => exact bit ends
  | b => exact other (Bool.or_eq_true_iff.mpr (.inl ends))
  | p => exact other (Bool.or_eq_true_iff.mpr (.inr ends))

/-- A rate whose parts are found and whose time is known has no suffix behind an unknown
size. -/
def RateReadable (s : List Char) : Prop :=
  match rateCaptures s with
  | none => True
  | some (_, unit, time) =>
    (timeUnit time).isSome → ∀ pre, sizePrefix (Lua.lower unit) = some pre → (sizeUnit pre).isSome

/-- An amount of data whose parts are found has a suffix behind a size. -/
def DataReadable (s : List Char) : Prop :=
  match limitCaptures s with
  | none => True
  | some (_, unit) => ∃ pre, sizePrefix (Lua.lower unit) = some pre ∧ (sizeUnit pre).isSome

/-- A time whose parts are found has a unit of time. -/
def TimeReadable (s : List Char) : Prop :=
  match limitCaptures s with
  | none => True
  | some (_, unit) => (timeUnit (Lua.lower unit)).isSome

/-- What the parsers make of a size unit. -/
def SizeComputes (unit : List Char) (psize size : Number) : Prop :=
  ∃ (pre : List Char) (factor : Nat) (suffix : SizeSuffix),
    Lua.lower unit = pre ++ suffix.text ∧ sizeUnit pre = some factor ∧ size = suffix.bits psize (.ofNat factor)

/-- What the parser makes of a rate. -/
def RateComputes (s : List Char) (psize v : Number) : Prop :=
  ∃ num unit time size sec, RateParts s num unit time ∧
    (unit = [] ∧ size = .ofNat (10 ^ 6) ∨ SizeComputes unit psize size) ∧ timeUnit time = some sec ∧
    v = tonumber num * (size / .ofNat (10 ^ 6)) / sec

def DataComputes (s : List Char) (psize v : Number) : Prop :=
  ∃ num unit size, LimitParts s num unit ∧ SizeComputes unit psize size ∧
    v = (tonumber num * size / (psize * .ofNat 8)).ceil

def TimeComputes (s : List Char) (v : Number) : Prop :=
  ∃ num unit sec, LimitParts s num unit ∧ timeUnit (Lua.lower unit) = some sec ∧ v = tonumber num * sec

/-- The three ends of a parser: a value for a string that is read, a message for one that
denotes nothing, and an error of Lua for one that is not read. -/
def Ends (result : Except LuaRaise (Option Number × List String)) (readable : Prop) (denotes : Prop)
    (computes : Number → Prop) : Prop :=
  (readable ∧ ∃ v, result = .ok (some v, []) ∧ computes v) ∨
    (readable ∧ ¬ denotes ∧ ∃ message, result = .ok (none, [message])) ∨ ¬ readable ∧ ∃ raise, result = .error raise

section
variable {result : Except LuaRaise (Option Number × List String)} {readable denotes : Prop} {computes : Number → Prop}

theorem Ends.ok_iff (ends : Ends result readable denotes computes) : (∃ answer, result = .ok answer) ↔ readable := by
  rcases ends with ⟨read, v, rfl, _⟩ | ⟨read, _, message, rfl⟩ | ⟨unread, raise, rfl⟩
  · exact iff_of_true ⟨_, rfl⟩ read
  · exact iff_of_true ⟨_, rfl⟩ read
  · exact iff_of_false nofun unread

/-- With the right values it answers what it can read. -/
theorem Ends.answers_iff {quantity : ℚ → Prop} {returned : Number → ℚ → Prop}
    (ends : Ends result readable denotes computes) (meant : ∀ q, quantity q → denotes)
    (right : ∀ v, computes v → ∃ q, quantity q ∧ returned v q) : Answers result quantity returned ↔ readable := by
  rcases ends with ⟨read, v, rfl, computed⟩ | ⟨read, nothing, message, rfl⟩ | ⟨unread, raise, rfl⟩
  · obtain ⟨q, denoted, close⟩ := right v computed
    exact iff_of_true (.inl ⟨v, q, rfl, denoted, close⟩) read
  · exact iff_of_true (.inr ⟨message, rfl, fun q denoted => nothing (meant q denoted)⟩) read
  · refine iff_of_false ?_ unread
    rintro (⟨v, q, same, _⟩ | ⟨message, same, _⟩) <;> cases same

end

/-- What becomes of the bits of a unit, with a result for a unit without a suffix. -/
def quantity (bits : Except LuaRaise (Option (Option Number))) (bare : Except LuaRaise (Option Number × List String))
    (value : Number → Number) : Except LuaRaise (Option Number × List String) :=
  match bits with
  | .error raise => .error raise
  | .ok none => bare
  | .ok (some none) => .error .arithmeticOnNil
  | .ok (some (some bits)) => .ok (some (value bits), [])

/-- A suffix behind something that is no size raises. -/
theorem quantity_raises {bits : Except LuaRaise (Option (Option Number))}
    {bare : Except LuaRaise (Option Number × List String)} {value : Number → Number}
    (raises : bits = .ok (some none) ∨ bits = .error .arithmeticOnNil) :
    quantity bits bare value = .error .arithmeticOnNil := by
  rcases raises with rfl | rfl <;> rfl

section
variable {s num unit time : List Char}

theorem rateOption_of_captures {sec : Number} (psize : Number) (captured : rateCaptures s = some (num, unit, time))
    (known : timeUnit time = some sec) :
    rateOption s psize = quantity (unitBits (Lua.lower unit) psize) (.ok (none, [sizeError]))
      fun bits => tonumber num * (bits / .ofNat (10 ^ 6)) / sec := by
  rw [rateOption, parseRate, captured]
  simp only [known]
  cases unitBits (Lua.lower unit) psize with
  | error raise => rfl
  | ok bits =>
    cases bits with
    | none => rfl
    | some bits => cases bits <;> rfl

/-- The time units of the code are those of the strings. -/
theorem timeUnit_cases (time : List Char) : timeUnit time = none ∧ seconds time = none ∨
    ∃ v q, timeUnit time = some v ∧ seconds time = some q ∧ v.Near 1 q ∧ 1 / 1000 ≤ q ∧ q ≤ 3600 := by
  have whole : ∀ n : Nat, (Number.ofNat n).Near 1 n := fun n => (Number.near_ofNat n).mono (cast_nonneg n) zero_le_one
  unfold timeUnit seconds
  split
  · exact .inr ⟨_, _, rfl, rfl, by exact_mod_cast whole 1, by norm_num, by norm_num⟩
  · refine .inr ⟨_, _, rfl, rfl, ?_, le_rfl, by norm_num⟩
    have quotient := (Number.near_ofNat 1).div (Number.near_ofNat 1000) (by norm_num) (by norm_num)
      (.inr (by decide +kernel)) (by decide) (by decide)
    exact_mod_cast quotient
  · exact .inr ⟨_, _, rfl, rfl, by exact_mod_cast whole 1, by norm_num, by norm_num⟩
  · exact .inr ⟨_, _, rfl, rfl, by exact_mod_cast whole 60, by norm_num, by norm_num⟩
  · exact .inr ⟨_, _, rfl, rfl, by exact_mod_cast whole 3600, by norm_num, by norm_num⟩
  · exact .inl ⟨rfl, rfl⟩

theorem rateOption_ends (s : List Char) (psize : Number) :
    Ends (rateOption s psize) (RateReadable s) (∃ psize q, RateDenotes s psize q) (RateComputes s psize) := by
  rw [RateReadable]
  cases captured : rateCaptures s with
  | none =>
    refine .inr (.inl ⟨trivial, ?_, _, by rw [rateOption, parseRate, captured]; rfl⟩)
    rintro ⟨_, _, _, _, _, _, _, parts, _⟩
    rw [parts.captures] at captured
    cases captured
  | some parts =>
    obtain ⟨num, unit, time⟩ := parts
    dsimp only
    rcases timeUnit_cases time with ⟨unknown, undenoted⟩ | ⟨sec, _, known, _⟩
    · rw [unknown]
      refine .inr (.inl ⟨nofun, ?_, timeError, ?_⟩)
      · rintro ⟨_, _, _, _, _, _, _, parts, _, denoted, _⟩
        obtain ⟨⟩ := captured.symm.trans parts.captures
        rw [undenoted] at denoted
        cases denoted
      · rw [rateOption, parseRate, captured]
        simp only [unknown]
        rfl
    have result := rateOption_of_captures psize captured known
    rw [result, known]
    by_cases empty : unit = []
    · subst empty
      exact .inl ⟨nofun, _, rfl, num, [], time, _, sec, rateCaptures_sound captured, .inl ⟨rfl, rfl⟩, known, rfl⟩
    rcases unitBits_cases (lower_ne_nil empty) psize with ⟨bare, unsized⟩ |
      ⟨pre, factor, suffix, word, front, size, found⟩ | ⟨pre, front, size, raises⟩
    · rw [unsized, bare]
      refine .inr (.inl ⟨nofun, ?_, sizeError, rfl⟩)
      rintro ⟨_, _, _, _, _, _, _, parts, size, _⟩
      obtain ⟨⟩ := captured.symm.trans parts.captures
      exact size.elim (fun unitless => empty unitless.1) fun denoted => denoted.sizePrefix_ne_none bare
    · rw [found]
      refine .inl ⟨fun _ pre' front' => ?_, _, rfl, num, unit, time, _, sec, rateCaptures_sound captured,
        .inr ⟨pre, factor, suffix, word, size, rfl⟩, known, rfl⟩
      obtain rfl := Option.some.inj (front.symm.trans front')
      rw [size, Option.isSome_some]
    · rw [quantity_raises raises]
      refine .inr (.inr ⟨fun all => ?_, _, rfl⟩)
      have sized := all rfl pre front
      rw [size] at sized
      cases sized

theorem dataLimitOption_of_captures (psize : Number) (captured : limitCaptures s = some (num, unit)) :
    dataLimitOption s psize = quantity (unitBits (Lua.lower unit) psize) (.error .formatNil)
      fun bits => (tonumber num * bits / (psize * .ofNat 8)).ceil := by
  rw [dataLimitOption, parseDataLimit, captured]
  dsimp only
  cases unitBits (Lua.lower unit) psize with
  | error raise => rfl
  | ok bits =>
    cases bits with
    | none => rfl
    | some bits => cases bits <;> rfl

theorem dataLimitOption_ends (s : List Char) (psize : Number) :
    Ends (dataLimitOption s psize) (DataReadable s) (∃ psize q, DataDenotes s psize q) (DataComputes s psize) := by
  rw [DataReadable]
  cases captured : limitCaptures s with
  | none =>
    refine .inr (.inl ⟨trivial, ?_, _, by rw [dataLimitOption, parseDataLimit, captured]; rfl⟩)
    rintro ⟨_, _, _, _, _, parts, _⟩
    rw [parts.captures] at captured
    cases captured
  | some parts =>
    obtain ⟨num, unit⟩ := parts
    have parts := limitCaptures_sound captured
    dsimp only
    rw [dataLimitOption_of_captures psize captured]
    rcases unitBits_cases (lower_ne_nil parts.nonempty) psize with ⟨bare, unsized⟩ |
      ⟨pre, factor, suffix, word, front, size, found⟩ | ⟨pre, front, size, raises⟩
    · rw [unsized, bare]
      exact .inr (.inr ⟨nofun, _, rfl⟩)
    · rw [found]
      exact .inl ⟨⟨pre, front, by rw [size, Option.isSome_some]⟩, _, rfl, num, unit, _, parts,
        ⟨pre, factor, suffix, word, size, rfl⟩, rfl⟩
    · rw [quantity_raises raises]
      refine .inr (.inr ⟨fun ⟨pre', front', sized⟩ => ?_, _, rfl⟩)
      obtain rfl := Option.some.inj (front.symm.trans front')
      rw [size] at sized
      cases sized

theorem timeLimitOption_ends (s : List Char) :
    Ends (timeLimitOption s) (TimeReadable s) (∃ q, TimeDenotes s q) (TimeComputes s) := by
  rw [TimeReadable, timeLimitOption, parseTimeLimit]
  cases captured : limitCaptures s with
  | none =>
    refine .inr (.inl ⟨trivial, ?_, _, rfl⟩)
    rintro ⟨_, _, _, _, parts, _⟩
    rw [parts.captures] at captured
    cases captured
  | some parts =>
    obtain ⟨num, unit⟩ := parts
    dsimp only
    cases known : timeUnit (Lua.lower unit) with
    | none => exact .inr (.inr ⟨nofun, _, rfl⟩)
    | some sec => exact .inl ⟨rfl, _, rfl, num, unit, sec, limitCaptures_sound captured, known, rfl⟩

end

section
open Binary64
variable {s num unit : List Char} {psize : Nat}

theorem ofDigitChars_lt {digits : List Char} (all : ∀ c ∈ digits, c.isDigit = true) :
    Nat.ofDigitChars 10 digits 0 < 10 ^ digits.length := by
  induction digits with
  | nil => decide
  | cons c digits ih =>
    have digit : c.toNat - '0'.toNat ≤ 9 := by
      have isDigit := all c mem_cons_self
      simp only [Char.isDigit, ge_iff_le, Bool.and_eq_true, decide_eq_true_eq, UInt32.le_iff_toNat_le] at isDigit
      have most : c.toNat ≤ 57 := isDigit.2
      have zero : '0'.toNat = 48 := rfl
      omega
    have rest := ih fun d member => all d (mem_cons_of_mem c member)
    have high := Nat.mul_le_mul_left (10 ^ digits.length) digit
    rw [ofDigitChars_cons, ofDigitChars_eq_ofDigitChars_zero, Nat.mul_zero, Nat.zero_add, length_cons, Nat.pow_succ]
    omega

theorem Numeral.decimalValue_eq (numeral : Numeral num) :
    ∃ n k : Nat, decimalValue num = n / 10 ^ k ∧ n < 10 ^ num.length ∧ k ≤ num.length := by
  obtain ⟨int, dot, frac, rfl, -, digits, point, more⟩ := numeral
  have pointless : ∀ c ∈ int, except '.' c = true := by
    intro c member
    refine decide_eq_true fun same => ?_
    have digit := digits c member
    rw [same] at digit
    cases digit
  have front := ofDigitChars_lt digits
  have behind := ofDigitChars_lt more
  rw [decimalValue]
  rcases point with ⟨rfl, rfl⟩ | rfl
  · have taken := @takeWhile_append_of_pos _ _ int [] pointless
    have dropped := @dropWhile_append_of_pos _ _ int [] pointless
    rw [takeWhile_nil, append_nil] at taken
    rw [dropWhile_nil, append_nil] at dropped
    rw [append_nil, append_nil, taken, dropped]
    exact ⟨_, 0, by simp, front, Nat.zero_le _⟩
  · rw [append_assoc, takeWhile_append_of_pos pointless, dropWhile_append_of_pos pointless,
      show ['.'] ++ frac = '.' :: frac from rfl, takeWhile_cons_of_neg (by decide),
      dropWhile_cons_of_neg (by decide),
      append_nil, drop_one, tail_cons]
    refine ⟨Nat.ofDigitChars 10 int 0 * 10 ^ frac.length + Nat.ofDigitChars 10 frac 0, frac.length, ?_, ?_, ?_⟩
    · push_cast
      rw [add_div, mul_div_cancel_right₀ _ (by positivity)]
    · calc Nat.ofDigitChars 10 int 0 * 10 ^ frac.length + Nat.ofDigitChars 10 frac 0
          < (Nat.ofDigitChars 10 int 0 + 1) * 10 ^ frac.length := by
            rw [succ_mul]
            omega
        _ ≤ 10 ^ int.length * 10 ^ frac.length := Nat.mul_le_mul_right _ front
        _ ≤ 10 ^ (int ++ '.' :: frac).length := by
            rw [← Nat.pow_add, length_append, length_cons]
            exact Nat.pow_le_pow_right (by decide) (by omega)
    · rw [length_append, length_cons]
      omega

/-- Zero, or not beyond the numerals of 256 characters. -/
def Moderate (d : ℚ) : Prop := d = 0 ∨ 10 ^ (-256 : ℤ) ≤ d ∧ d ≤ 10 ^ (256 : ℤ)

theorem Numeral.moderate (numeral : Numeral num) (short : num.length ≤ 256) : Moderate (decimalValue num) := by
  obtain ⟨n, k, value, small, places⟩ := numeral.decimalValue_eq
  have power : (0 : ℚ) < 10 ^ k := by positivity
  rw [value]
  rcases Nat.eq_zero_or_pos n with rfl | positive
  · exact .inl (by rw [cast_zero, zero_div])
  refine .inr ⟨?_, ?_⟩
  · rw [le_div_iff₀ power]
    calc (10 : ℚ) ^ (-256 : ℤ) * 10 ^ k ≤ 10 ^ (-256 : ℤ) * 10 ^ 256 := by
          gcongr
          · norm_num
          · exact places.trans short
      _ = 1 := by decide +kernel
      _ ≤ n := one_le_cast.mpr positive
  · calc (n / 10 ^ k : ℚ) ≤ n := div_le_self (cast_nonneg n) (one_le_pow₀ (by norm_num))
      _ ≤ (10 ^ 256 : Nat) := cast_le.mpr (small.le.trans (Nat.pow_le_pow_right (by decide) short))
      _ = 10 ^ (256 : ℤ) := by decide +kernel

theorem Moderate.nonneg {d : ℚ} (moderate : Moderate d) : 0 ≤ d := by
  rcases moderate with rfl | ⟨low, -⟩
  · exact le_rfl
  · exact le_trans (by positivity) low

theorem Moderate.normal_mul {d c : ℚ} (moderate : Moderate d) (least : 1 / 10 ^ 40 ≤ c) (most : c ≤ 10 ^ 40) :
    Number.Normal (d * c) := by
  rcases moderate with rfl | ⟨low, high⟩
  · exact .inl (zero_mul c)
  have positive : 0 ≤ c := le_trans (by positivity) least
  refine .inr ⟨?_, ?_⟩
  · calc (2 : ℚ) ^ (-1000 : ℤ) ≤ 10 ^ (-256 : ℤ) * (1 / 10 ^ 40) := by decide +kernel
      _ ≤ d * c := by gcongr
  · calc d * c ≤ 10 ^ (256 : ℤ) * 10 ^ 40 := by gcongr
      _ ≤ 2 ^ (1000 : ℤ) := by decide +kernel

theorem Moderate.near_ofRat {d : ℚ} (moderate : Moderate d) : (Number.ofRat d).Near 1 d := by
  have normal := moderate.normal_mul (c := 1) (by norm_num) (by norm_num)
  rw [mul_one] at normal
  refine Number.near_ofRat (n := 0) normal (by decide) ?_
  rw [sub_self, abs_zero]
  have nonneg := moderate.nonneg
  positivity

theorem sizeUnit_le {pre : List Char} {factor : Nat} (known : sizeUnit pre = some factor) :
    0 < factor ∧ factor ≤ 2 ^ 30 := by
  unfold sizeUnit at known
  split at known <;> cases known <;> decide

/-- The bits of a unit are computed without an error. -/
theorem SizeComputes.denotes {size : Number} (computes : SizeComputes unit (.ofNat psize) size) (positive : 0 < psize)
    (small : psize < 2 ^ 16) : ∃ bits, SizeDenotes unit psize bits ∧ size = .ofNat bits ∧ 0 < bits ∧ bits < 2 ^ 49 := by
  obtain ⟨pre, factor, suffix, word, known, rfl⟩ := computes
  obtain ⟨positiveUnit, most⟩ := sizeUnit_le known
  refine ⟨factor * suffix.size psize, ⟨pre, factor, suffix, word, known, rfl⟩, ?_⟩
  cases suffix with
  | bit => exact ⟨by rw [SizeSuffix.bits, SizeSuffix.size, Nat.mul_one], by rw [SizeSuffix.size]; omega,
      by rw [SizeSuffix.size]; omega⟩
  | b =>
    rw [SizeSuffix.bits, SizeSuffix.size]
    exact ⟨Number.ofNat_mul_ofNat (by omega), by omega, by omega⟩
  | p =>
    rw [SizeSuffix.bits, SizeSuffix.size]
    have bound : factor * psize < 2 ^ 46 := by
      calc factor * psize ≤ 2 ^ 30 * psize := Nat.mul_le_mul_right psize most
        _ < 2 ^ 46 := by omega
    have product : 0 < factor * psize := Nat.mul_pos positiveUnit positive
    rw [Number.ofNat_mul_ofNat (by omega), Number.ofNat_mul_ofNat (by omega), ← Nat.mul_assoc]
    exact ⟨rfl, by omega, by omega⟩

/-- What the parser makes of a rate is what it denotes, but for five roundings. -/
theorem RateComputes.denotes {v : Number} (computes : RateComputes s (.ofNat psize) v) (short : s.length ≤ 256)
    (positive : 0 < psize) (small : psize < 2 ^ 16) : ∃ q, RateDenotes s psize q ∧ v.Near 5 q := by
  obtain ⟨num, unit, time, size, sec, parts, sized, known, rfl⟩ := computes
  obtain ⟨bits, denoted, rfl, least, most⟩ : ∃ bits, (unit = [] ∧ bits = 10 ^ 6 ∨ SizeDenotes unit psize bits) ∧
      size = .ofNat bits ∧ 0 < bits ∧ bits < 2 ^ 49 := by
    rcases sized with ⟨rfl, rfl⟩ | computes
    · exact ⟨10 ^ 6, .inl ⟨rfl, rfl⟩, rfl, by decide, by decide⟩
    · obtain ⟨bits, denoted, exact⟩ := computes.denotes positive small
      exact ⟨bits, .inr denoted, exact⟩
  obtain ⟨unknown, -⟩ | ⟨_, q, found, meant, near, low, high⟩ := timeUnit_cases time
  · rw [unknown] at known
    cases known
  obtain rfl := Option.some.inj (found.symm.trans known)
  have moderate := parts.numeral.moderate (by
    obtain ⟨slash, -, rfl⟩ := parts.whole
    simp only [length_append] at short
    omega)
  have one : (1 : ℚ) ≤ bits := one_le_cast.mpr least
  have top : (bits : ℚ) ≤ 2 ^ 49 := by exact_mod_cast most.le
  have mega : (1 / 10 ^ 6 : ℚ) ≤ bits / (10 ^ 6 : Nat) ∧ (bits / (10 ^ 6 : Nat) : ℚ) ≤ 2 ^ 49 := by
    push_cast
    constructor <;> linarith
  have range : (1 / 10 ^ 10 : ℚ) ≤ bits / (10 ^ 6 : Nat) / q ∧ (bits / (10 ^ 6 : Nat) / q : ℚ) ≤ 10 ^ 20 := by
    rw [le_div_iff₀ (by linarith), div_le_iff₀ (by linarith)]
    constructor <;> linarith
  have megabits := (Number.near_ofNat bits).div (Number.near_ofNat (10 ^ 6)) (by linarith) (by norm_num)
    (Number.normal_of_le (by linarith) (by linarith)) (by decide) (by decide)
  have product := moderate.near_ofRat.mul megabits moderate.nonneg (by linarith)
    (moderate.normal_mul (by linarith) (by linarith)) (by decide) (by decide)
  have quotient := product.div near (mul_nonneg moderate.nonneg (by linarith)) (by linarith)
    (by rw [mul_div_assoc]; exact moderate.normal_mul (by linarith) (by linarith)) (by decide) (by decide)
  refine ⟨_, ⟨num, unit, time, bits, q, parts, denoted, meant, ?_⟩, quotient⟩
  push_cast
  ring

theorem LimitParts.moderate (parts : LimitParts s num unit) (short : s.length ≤ 256) : Moderate (decimalValue num) := by
  refine parts.numeral.moderate ?_
  rw [parts.whole, length_append] at short
  omega

/-- What the parser makes of a time is what it denotes, but for three roundings. -/
theorem TimeComputes.denotes {v : Number} (computes : TimeComputes s v) (short : s.length ≤ 256) :
    ∃ q, TimeDenotes s q ∧ v.Near 3 q := by
  obtain ⟨num, unit, sec, parts, known, rfl⟩ := computes
  obtain ⟨unknown, -⟩ | ⟨_, q, found, meant, near, low, high⟩ := timeUnit_cases (Lua.lower unit)
  · rw [unknown] at known
    cases known
  obtain rfl := Option.some.inj (found.symm.trans known)
  have moderate := parts.moderate short
  have product := moderate.near_ofRat.mul near moderate.nonneg (by linarith)
    (moderate.normal_mul (by linarith) (by linarith)) (by decide) (by decide)
  exact ⟨_, ⟨num, unit, q, parts, meant, rfl⟩, product⟩

/-- A number of packets, but for three roundings before the last packet is made whole. -/
def RoundedUp (v : Number) (q : ℚ) : Prop := ∃ w : Number, w.Near 3 q ∧ v = w.ceil

theorem DataComputes.denotes {v : Number} (computes : DataComputes s (.ofNat psize) v) (short : s.length ≤ 256)
    (positive : 0 < psize) (small : psize < 2 ^ 16) : ∃ q, DataDenotes s psize q ∧ RoundedUp v q := by
  obtain ⟨num, unit, size, parts, sized, rfl⟩ := computes
  obtain ⟨bits, denoted, rfl, least, most⟩ := sized.denotes positive small
  have moderate := parts.moderate short
  have one : (1 : ℚ) ≤ bits := one_le_cast.mpr least
  have top : (bits : ℚ) ≤ 2 ^ 49 := by exact_mod_cast most.le
  have packet : (1 : ℚ) ≤ (psize * 8 : Nat) := by exact_mod_cast Nat.mul_pos positive (by decide)
  have large : ((psize * 8 : Nat) : ℚ) ≤ 2 ^ 19 := by
    have bound : psize * 8 ≤ 2 ^ 19 := by omega
    exact_mod_cast bound
  have range : (1 / 2 ^ 19 : ℚ) ≤ bits / (psize * 8 : Nat) ∧ (bits / (psize * 8 : Nat) : ℚ) ≤ 2 ^ 49 := by
    rw [le_div_iff₀ (by linarith), div_le_iff₀ (by linarith)]
    constructor <;> linarith
  have product := moderate.near_ofRat.mul (Number.near_ofNat bits) moderate.nonneg (by linarith)
    (moderate.normal_mul (by linarith) (by linarith)) (by decide) (by decide)
  have quotient := product.div (Number.near_ofNat (psize * 8)) (mul_nonneg moderate.nonneg (by linarith)) (by linarith)
    (by rw [mul_div_assoc]; exact moderate.normal_mul (by linarith) (by linarith)) (by decide) (by decide)
  rw [← Number.ofNat_mul_ofNat (by omega)] at quotient
  refine ⟨_, ⟨num, unit, bits, parts, denoted, ?_⟩, _, quotient, rfl⟩
  push_cast
  rfl

/-- The number of a string is whole, and so many bits are counted exactly. -/
def WholeBits (s : List Char) (psize : Nat) : Prop :=
  ∀ num unit bits, LimitParts s num unit → SizeDenotes unit psize bits →
    ∃ n : Nat, decimalValue num = n ∧ n * bits < 2 ^ 53

/-- Then the packets are counted exactly too: the quotient is rounded, but not past a whole number. -/
theorem DataComputes.denotes_ceil {v : Number} (computes : DataComputes s (.ofNat psize) v) (whole : WholeBits s psize)
    (positive : 0 < psize) (small : psize < 2 ^ 16) : ∃ q, DataDenotes s psize q ∧ v = .finite ⌈q⌉ := by
  obtain ⟨num, unit, size, parts, sized, rfl⟩ := computes
  obtain ⟨bits, denoted, rfl, least, -⟩ := sized.denotes positive small
  obtain ⟨n, value, short⟩ := whole num unit bits parts denoted
  refine ⟨_, ⟨num, unit, bits, parts, denoted, rfl⟩, ?_⟩
  have number : n < 2 ^ 53 := (Nat.le_mul_of_pos_right n least).trans_lt short
  have divisor : ((psize * 8 : Nat) : ℚ) ≠ 0 := cast_ne_zero.mpr (by omega)
  have nonneg : (0 : ℚ) ≤ (n * bits : Nat) / (psize * 8 : Nat) := by positivity
  have bounded : |((n * bits : Nat) / (psize * 8 : Nat) : ℚ)| < 2 ^ 1023 := by
    rw [abs_of_nonneg nonneg]
    calc ((n * bits : Nat) / (psize * 8 : Nat) : ℚ) ≤ (n * bits : Nat) :=
          div_le_self (cast_nonneg _) (one_le_cast.mpr (by omega))
      _ < (2 ^ 53 : Nat) := cast_lt.mpr short
      _ < 2 ^ 1023 := by decide +kernel
  rw [tonumber, value, Number.ofRat_natCast number, Number.ofNat_mul_ofNat short, Number.ofNat_mul_ofNat (by omega),
    Number.ofNat, Number.ofNat, Number.finite_div_finite _ divisor, Number.ofRat_of_abs_lt bounded, Number.ceil,
    ceil_rounded_div short (by omega) (by omega)]
  push_cast
  rfl

end

end MoonGen
