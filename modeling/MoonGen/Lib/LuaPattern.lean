import Mathlib.Data.List.Forall2

namespace LuaPattern

open List Option

variable {α : Type*}

/-- An item of a pattern: a class of characters, once or with `?`, `*` or `+`. -/
inductive Item (α : Type*)
  | one (p : α → Bool)
  | opt (p : α → Bool)
  | star (p : α → Bool)
  | plus (p : α → Bool)

/-- A class of the form `[^x]`. -/
def except [DecidableEq α] (x : α) : α → Bool := fun c => c ≠ x

/-- The class of one character. -/
def only [DecidableEq α] (x : α) : α → Bool := fun c => c = x

/-- The class of all characters. -/
def any : α → Bool := fun _ => true

/-- The ways to cut off characters of a class, the longest first. -/
def greedy (p : α → Bool) : List α → List (List α × List α)
  | [] => [([], [])]
  | c :: s => if p c then (greedy p s).map (fun cut => (c :: cut.1, cut.2)) ++ [([], c :: s)] else [([], c :: s)]

/-- The ways to match an item at the start of a text, in the order in which they are tried. -/
def Item.cuts : Item α → List α → List (List α × List α)
  | one _, [] => []
  | one p, c :: s => if p c then [([c], s)] else []
  | opt _, [] => [([], [])]
  | opt p, c :: s => if p c then [([c], s), ([], c :: s)] else [([], c :: s)]
  | star p, s => greedy p s
  | plus _, [] => []
  | plus p, c :: s => if p c then (greedy p s).map fun cut => (c :: cut.1, cut.2) else []

/-- A match at the start of a text, with backtracking: the pieces for the items and the
rest, which has to be accepted. -/
def run (accept : List α → Bool) : List (Item α) → List α → Option (List (List α) × List α)
  | [], s => if accept s then some ([], s) else none
  | item :: items, s => (item.cuts s).findSome? fun cut =>
      (run accept items cut.2).map fun found => (cut.1 :: found.1, found.2)

/-- A match of a pattern between `^` and `$`. -/
def matchWhole (items : List (Item α)) (s : List α) : Option (List (List α)) :=
  (run List.isEmpty items s).map Prod.fst

/-- The first match of a pattern without anchors. -/
def find (items : List (Item α)) : List α → Option (List (List α))
  | [] => (run (fun _ => true) items []).map Prod.fst
  | c :: s =>
    match run (fun _ => true) items (c :: s) with
    | some found => some found.1
    | none => find items s

/-- The matches that `gmatch` finds one behind the other. -/
def gmatchLoop (items : List (Item α)) : Nat → List α → List (List (List α))
  | 0, _ => []
  | _ + 1, [] => ((run (fun _ => true) items []).map Prod.fst).toList
  | fuel + 1, c :: s =>
    match run (fun _ => true) items (c :: s) with
    | some found => found.1 :: gmatchLoop items fuel (if found.2.length ≤ s.length then found.2 else s)
    | none => gmatchLoop items fuel s

def gmatch (items : List (Item α)) (s : List α) : List (List (List α)) := gmatchLoop items (s.length + 1) s

/-- Runs of a class with one character of another class between two of them. -/
def separatedRuns (p q : α → Bool) : Nat → List (Item α)
  | 0 => []
  | 1 => [.plus p]
  | n + 2 => .plus p :: .one q :: separatedRuns p q (n + 1)

/-- The pieces of such a match. -/
def between (sep : α) : List (List α) → List (List α)
  | [] => []
  | [x] => [x]
  | x :: y :: xs => x :: [sep] :: between sep (y :: xs)

/-- What an item may match. -/
def Item.Fits : Item α → List α → Prop
  | one p, a => ∃ c, p c = true ∧ a = [c]
  | opt p, a => a = [] ∨ ∃ c, p c = true ∧ a = [c]
  | star p, a => ∀ c ∈ a, p c = true
  | plus p, a => a ≠ [] ∧ ∀ c ∈ a, p c = true

theorem fits_opt_only [DecidableEq α] {x : α} {a : List α} (fits : (Item.opt (only x)).Fits a) : a = [] ∨ a = [x] := by
  rcases fits with empty | ⟨c, same, rfl⟩
  · exact .inl empty
  · exact .inr (by rw [of_decide_eq_true same])

theorem greedy_sound {p : α → Bool} {s a b : List α} (member : (a, b) ∈ greedy p s) :
    a ++ b = s ∧ ∀ c ∈ a, p c = true := by
  have nothing {a s : List α} (empty : (a, b) = ([], s)) : a ++ b = s ∧ ∀ c ∈ a, p c = true := by
    obtain ⟨rfl, rfl⟩ := Prod.mk.inj empty
    exact ⟨rfl, forall_mem_nil _⟩
  induction s generalizing a with
  | nil => exact nothing (mem_singleton.mp member)
  | cons c s ih =>
    rw [greedy] at member
    split at member
    · rename_i passes
      rcases mem_append.mp member with longer | empty
      · obtain ⟨⟨a', b'⟩, inner, same⟩ := mem_map.mp longer
        obtain ⟨rfl, rfl⟩ := Prod.mk.inj same
        obtain ⟨whole, each⟩ := ih inner
        exact ⟨congrArg (c :: ·) whole, forall_mem_cons.mpr ⟨passes, each⟩⟩
      · exact nothing (mem_singleton.mp empty)
    · exact nothing (mem_singleton.mp member)

/-- A cut makes up the text, and its first part fits the item. -/
theorem cuts_sound {item : Item α} {s a b : List α} (member : (a, b) ∈ item.cuts s) : a ++ b = s ∧ item.Fits a := by
  cases item with
  | one p =>
    cases s with
    | nil => cases member
    | cons c s =>
      rw [Item.cuts] at member
      split at member
      · rename_i passes
        obtain ⟨rfl, rfl⟩ := Prod.mk.inj (mem_singleton.mp member)
        exact ⟨rfl, c, passes, rfl⟩
      · cases member
  | opt p =>
    cases s with
    | nil =>
      obtain ⟨rfl, rfl⟩ := Prod.mk.inj (mem_singleton.mp member)
      exact ⟨rfl, .inl rfl⟩
    | cons c s =>
      rw [Item.cuts] at member
      split at member
      · rename_i passes
        rcases mem_cons.mp member with taken | left
        · obtain ⟨rfl, rfl⟩ := Prod.mk.inj taken
          exact ⟨rfl, .inr ⟨c, passes, rfl⟩⟩
        · obtain ⟨rfl, rfl⟩ := Prod.mk.inj (mem_singleton.mp left)
          exact ⟨rfl, .inl rfl⟩
      · obtain ⟨rfl, rfl⟩ := Prod.mk.inj (mem_singleton.mp member)
        exact ⟨rfl, .inl rfl⟩
  | star p => exact greedy_sound member
  | plus p =>
    cases s with
    | nil => cases member
    | cons c s =>
      rw [Item.cuts] at member
      split at member
      · rename_i passes
        obtain ⟨⟨a', b'⟩, inner, same⟩ := mem_map.mp member
        obtain ⟨rfl, rfl⟩ := Prod.mk.inj same
        obtain ⟨whole, each⟩ := greedy_sound inner
        exact ⟨congrArg (c :: ·) whole, cons_ne_nil _ _, forall_mem_cons.mpr ⟨passes, each⟩⟩
      · cases member

variable {accept : List α → Bool} {items : List (Item α)} {s rest : List α} {pieces : List (List α)}

/-- The pieces of a match make up the text, and each fits its item. -/
theorem run_sound (found : run accept items s = some (pieces, rest)) :
    pieces.flatten ++ rest = s ∧ List.Forall₂ Item.Fits items pieces ∧ accept rest = true := by
  induction items generalizing s pieces with
  | nil =>
    rw [run] at found
    split at found
    · rename_i accepted
      obtain ⟨rfl, rfl⟩ := Prod.mk.inj (Option.some.inj found)
      exact ⟨rfl, .nil, accepted⟩
    · cases found
  | cons item items ih =>
    obtain ⟨⟨a, b⟩, cut, behind⟩ := exists_of_findSome?_eq_some found
    obtain ⟨⟨tail, last⟩, later, same⟩ := map_eq_some_iff.mp behind
    obtain ⟨rfl, rfl⟩ := Prod.mk.inj same
    obtain ⟨whole, fits⟩ := cuts_sound cut
    obtain ⟨inner, each, accepted⟩ := ih later
    refine ⟨?_, .cons fits each, accepted⟩
    rw [flatten_cons, append_assoc, inner, whole]

theorem matchWhole_sound (found : matchWhole items s = some pieces) :
    pieces.flatten = s ∧ List.Forall₂ Item.Fits items pieces := by
  obtain ⟨⟨ps, rest⟩, result, rfl⟩ := map_eq_some_iff.mp found
  obtain ⟨whole, each, empty⟩ := run_sound result
  rw [List.isEmpty_iff.mp empty, append_nil] at whole
  exact ⟨whole, each⟩

/-- A first cut that leads to a match is taken. -/
theorem run_cons {item : Item α} {a b : List α} {others : List (List α × List α)}
    (first : item.cuts s = (a, b) :: others) (next : run accept items b = some (pieces, rest)) :
    run accept (item :: items) s = some (a :: pieces, rest) := by
  rw [run, first, findSome?_cons]
  simp only [next, map_some]

variable {p : α → Bool} {a b : List α}

/-- Where a class of characters ends, the longest cut ends too. -/
theorem greedy_append (each : ∀ c ∈ a, p c = true) (stop : ∀ c ∈ b.head?, p c = false) :
    ∃ others, greedy p (a ++ b) = (a, b) :: others := by
  induction a with
  | nil =>
    cases b with
    | nil => exact ⟨[], rfl⟩
    | cons c b =>
      refine ⟨[], ?_⟩
      rw [nil_append, greedy, stop c rfl, if_neg Bool.false_ne_true]
  | cons c a ih =>
    obtain ⟨passes, later⟩ := forall_mem_cons.mp each
    obtain ⟨others, cuts⟩ := ih later
    refine ⟨others.map (fun cut => (c :: cut.1, cut.2)) ++ [([], c :: (a ++ b))], ?_⟩
    rw [cons_append, greedy, if_pos passes, cuts, map_cons, cons_append]

theorem run_star (each : ∀ c ∈ a, p c = true) (stop : ∀ c ∈ b.head?, p c = false)
    (next : run accept items b = some (pieces, rest)) :
    run accept (.star p :: items) (a ++ b) = some (a :: pieces, rest) := by
  obtain ⟨others, cuts⟩ := greedy_append each stop
  exact run_cons cuts next

theorem run_plus (nonempty : a ≠ []) (each : ∀ c ∈ a, p c = true) (stop : ∀ c ∈ b.head?, p c = false)
    (next : run accept items b = some (pieces, rest)) :
    run accept (.plus p :: items) (a ++ b) = some (a :: pieces, rest) := by
  cases a with
  | nil => exact absurd rfl nonempty
  | cons c a =>
    obtain ⟨passes, later⟩ := forall_mem_cons.mp each
    obtain ⟨others, cuts⟩ := greedy_append later stop
    have first : (Item.plus p).cuts (c :: a ++ b) = (c :: a, b) :: others.map fun cut => (c :: cut.1, cut.2) := by
      rw [cons_append, Item.cuts, if_pos passes, cuts, map_cons]
    exact run_cons first next

theorem run_one {c : α} (passes : p c = true) (next : run accept items b = some (pieces, rest)) :
    run accept (.one p :: items) (c :: b) = some ([c] :: pieces, rest) :=
  run_cons (by rw [Item.cuts, if_pos passes]) next

theorem run_opt_taken {c : α} (passes : p c = true) (next : run accept items b = some (pieces, rest)) :
    run accept (.opt p :: items) (c :: b) = some ([c] :: pieces, rest) :=
  run_cons (by rw [Item.cuts, if_pos passes]) next

theorem run_opt_left (stop : ∀ c ∈ b.head?, p c = false) (next : run accept items b = some (pieces, rest)) :
    run accept (.opt p :: items) b = some ([] :: pieces, rest) := by
  cases b with
  | nil => exact run_cons rfl next
  | cons c b => exact run_cons (by rw [Item.cuts, stop c rfl, if_neg Bool.false_ne_true]) next

/-- Parts with a separator between them are matched one by one. -/
theorem run_separatedRuns {q : α → Bool} {sep : α} (apart : p sep = false) (between : q sep = true) {xs : List (List α)}
    (nonempty : xs ≠ []) (each : ∀ x ∈ xs, x ≠ [] ∧ ∀ c ∈ x, p c = true) (stop : ∀ c ∈ rest.head?, p c = false)
    (accepted : accept rest = true) :
    run accept (separatedRuns p q xs.length) ([sep].intercalate xs ++ rest) =
      some (LuaPattern.between sep xs, rest) := by
  induction xs with
  | nil => exact absurd rfl nonempty
  | cons x xs ih =>
    obtain ⟨⟨filled, passes⟩, later⟩ := forall_mem_cons.mp each
    cases xs with
    | nil =>
      rw [intercalate_singleton]
      refine run_plus filled passes stop ?_
      rw [run, if_pos accepted]
    | cons y xs =>
      have parts : [sep].intercalate (x :: y :: xs) ++ rest = x ++ sep :: ([sep].intercalate (y :: xs) ++ rest) := by
        simp [List.intercalate]
      rw [parts]
      refine run_plus filled passes ?_ (run_one between (ih (cons_ne_nil _ _) later))
      rintro c ⟨rfl⟩
      exact apart

/-- A search through the cuts ends at the longest one that leads anywhere. -/
theorem findSome?_greedy {β : Type*} {f : List α × List α → Option β} {r : β} (each : ∀ c ∈ a, p c = true)
    (here : f (a, b) = some r) (longer : ∀ a' b', a' ≠ [] → a' ++ b' = b → f (a ++ a', b') = none) :
    (greedy p (a ++ b)).findSome? f = some r := by
  induction a generalizing f with
  | nil =>
    cases b with
    | nil =>
      rw [nil_append, greedy, findSome?_cons, here]
    | cons c b =>
      rw [nil_append, greedy]
      split
      · have absent : ((greedy p b).map fun cut => (c :: cut.1, cut.2)).findSome? f = none := by
          rw [findSome?_eq_none_iff]
          intro cut member
          obtain ⟨⟨a', b'⟩, inner, rfl⟩ := mem_map.mp member
          exact longer (c :: a') b' (cons_ne_nil _ _) (congrArg (c :: ·) (greedy_sound inner).1)
        rw [findSome?_append, absent, none_or, findSome?_cons, here]
      · rw [findSome?_cons, here]
  | cons c a ih =>
    obtain ⟨passes, later⟩ := forall_mem_cons.mp each
    have inner := ih (f := fun cut => f (c :: cut.1, cut.2)) later here longer
    rw [cons_append, greedy, if_pos passes, findSome?_append, findSome?_map]
    simp only [Function.comp_def, inner, some_or]

theorem run_star_last (each : ∀ c ∈ a, p c = true) (next : run accept items b = some (pieces, rest))
    (longer : ∀ a' b', a' ≠ [] → a' ++ b' = b → run accept items b' = none) :
    run accept (.star p :: items) (a ++ b) = some (a :: pieces, rest) := by
  refine findSome?_greedy each ?_ fun a' b' nonempty whole => ?_
  · simp only [next, map_some]
  · simp only [longer a' b' nonempty whole, map_none]

/-- A text without a match at any place. -/
theorem find_eq_none (each : ∀ before behind, before ++ behind = s → run (fun _ => true) items behind = none) :
    find items s = none := by
  induction s with
  | nil => rw [find, each [] [] rfl, map_none]
  | cons c s ih =>
    rw [find, each [] (c :: s) rfl]
    exact ih fun before behind whole => each (c :: before) behind (congrArg (c :: ·) whole)

theorem find_of_run (found : run (fun _ => true) items s = some (pieces, rest)) : find items s = some pieces := by
  cases s with
  | nil => rw [find, found, map_some]
  | cons c s => rw [find, found]

/-- The first match is the one at the first place that has any. -/
theorem find_eq_some_iff : find items s = some pieces ↔ ∃ before behind rest, before ++ behind = s ∧
    run (fun _ => true) items behind = some (pieces, rest) ∧
    ∀ before' behind', before' ++ behind' = s → before'.length < before.length →
      run (fun _ => true) items behind' = none := by
  induction s with
  | nil =>
    constructor
    · intro found
      obtain ⟨⟨_, rest⟩, here, rfl⟩ := map_eq_some_iff.mp found
      exact ⟨[], [], rest, rfl, here, fun _ _ _ shorter => absurd shorter (Nat.not_lt_zero _)⟩
    · rintro ⟨before, behind, rest, whole, here, -⟩
      obtain ⟨rfl, rfl⟩ := append_eq_nil_iff.mp whole
      exact find_of_run here
  | cons c s ih =>
    cases here : run (fun _ => true) items (c :: s) with
    | some found =>
      obtain ⟨first, last⟩ := found
      rw [find_of_run here, Option.some.injEq]
      constructor
      · rintro rfl
        exact ⟨[], c :: s, last, rfl, here, fun _ _ _ shorter => absurd shorter (Nat.not_lt_zero _)⟩
      · rintro ⟨before, behind, rest, whole, found, leftmost⟩
        cases before with
        | nil =>
          obtain rfl := whole
          exact (Prod.mk.inj (Option.some.inj (here.symm.trans found))).1
        | cons b before =>
          rw [leftmost [] (c :: s) rfl (Nat.succ_pos _)] at here
          cases here
    | none =>
      rw [find, here]
      dsimp only
      rw [ih]
      constructor
      · rintro ⟨before, behind, rest, rfl, found, leftmost⟩
        refine ⟨c :: before, behind, rest, rfl, found, fun before' behind' whole shorter => ?_⟩
        cases before' with
        | nil =>
          obtain rfl := whole
          exact here
        | cons b before' =>
          exact leftmost before' behind' (List.cons.inj whole).2 (Nat.lt_of_succ_lt_succ shorter)
      · rintro ⟨before, behind, rest, whole, found, leftmost⟩
        cases before with
        | nil =>
          obtain rfl := whole
          rw [here] at found
          cases found
        | cons b before =>
          obtain ⟨rfl, rfl⟩ := List.cons.inj whole
          exact ⟨before, behind, rest, rfl, found, fun before' behind' whole shorter =>
            leftmost (b :: before') behind' (congrArg (b :: ·) whole) (Nat.succ_lt_succ shorter)⟩

theorem run_plus_none {c : α} (ends : p c = false) : run accept (.plus p :: items) (c :: s) = none := by
  rw [run, Item.cuts, ends, if_neg Bool.false_ne_true, findSome?_nil]

theorem gmatchLoop_part (nonempty : a ≠ []) (each : ∀ c ∈ a, p c = true) (stop : ∀ c ∈ b.head?, p c = false)
    (fuel : Nat) : gmatchLoop [.plus p] (fuel + 1) (a ++ b) = [a] :: gmatchLoop [.plus p] fuel b := by
  have found : run (fun _ => true) [.plus p] (a ++ b) = some ([a], b) := run_plus nonempty each stop rfl
  obtain ⟨c, tail, rfl⟩ := exists_cons_of_ne_nil nonempty
  have shorter : b.length ≤ (tail ++ b).length := by
    rw [length_append]
    omega
  rw [cons_append, gmatchLoop, ← cons_append, found]
  simp only [if_pos shorter]

theorem gmatchLoop_skip {c : α} (ends : p c = false) (fuel : Nat) :
    gmatchLoop [.plus p] (fuel + 1) (c :: s) = gmatchLoop [.plus p] fuel s := by
  rw [gmatchLoop, run_plus_none ends]

/-- Behind a part the loop goes on with what follows the separator. -/
theorem gmatchLoop_intercalate {sep : α} (ends : p sep = false) {xs : List (List α)}
    (each : ∀ x ∈ xs, x ≠ [] ∧ ∀ c ∈ x, p c = true) {fuel : Nat} (enough : ([sep].intercalate xs).length < fuel) :
    gmatchLoop [.plus p] fuel ([sep].intercalate xs) = xs.map fun x => [x] := by
  induction xs generalizing fuel with
  | nil =>
    obtain ⟨fuel, rfl⟩ := Nat.exists_eq_succ_of_ne_zero (Nat.ne_of_gt enough)
    rfl
  | cons x xs ih =>
    obtain ⟨⟨nonempty, passes⟩, later⟩ := forall_mem_cons.mp each
    have long := length_pos_iff.mpr nonempty
    cases xs with
    | nil =>
      rw [intercalate_singleton] at enough ⊢
      obtain ⟨fuel, rfl⟩ : ∃ n, fuel = n + 1 + 1 := ⟨fuel - 2, by omega⟩
      have whole := gmatchLoop_part (b := []) nonempty passes nofun (fuel + 1)
      rw [append_nil] at whole
      rw [whole]
      rfl
    | cons y xs =>
      have parts : [sep].intercalate (x :: y :: xs) = x ++ sep :: [sep].intercalate (y :: xs) := by
        simp [List.intercalate]
      have stop : ∀ c ∈ (sep :: [sep].intercalate (y :: xs)).head?, p c = false := by
        rintro c ⟨rfl⟩
        exact ends
      rw [parts, length_append, length_cons] at enough
      obtain ⟨fuel, rfl⟩ : ∃ n, fuel = n + 1 + 1 := ⟨fuel - 2, by omega⟩
      rw [parts, gmatchLoop_part nonempty passes stop, gmatchLoop_skip ends, ih later (by omega)]
      rfl

/-- The parts of a text between separators, none of which is empty. -/
theorem gmatch_intercalate {sep : α} (ends : p sep = false) {xs : List (List α)}
    (each : ∀ x ∈ xs, x ≠ [] ∧ ∀ c ∈ x, p c = true) :
    gmatch [.plus p] ([sep].intercalate xs) = xs.map fun x => [x] :=
  gmatchLoop_intercalate ends each (Nat.lt_succ_self _)

end LuaPattern
