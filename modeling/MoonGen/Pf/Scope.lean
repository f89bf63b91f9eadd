import MoonGen.Pf.Order

namespace MoonGen

namespace Pf

open FlowGraph

/-- The names that are used behind bindings and not bound by them. -/
def freeIn : List (Name × Arith) → List Name → List Name
  | [], names => names
  | b :: bindings, names => b.2.names ++ (freeIn bindings names).filter (· ≠ b.1)

def Block.free (B : Block) : List Name := freeIn B.bindings B.control.names

/-- The name is used on a way from the block, and not bound on it before. -/
inductive Free (T : Blocks) (y : Name) : Nat → Prop
  | here {l : Nat} {B : Block} (here : T l = some B) (used : y ∈ B.free) : Free T y l
  | later {l k : Nat} {B : Block} (here : T l = some B) (unbound : y ∉ B.names) (next : k ∈ B.control.targets)
      (free : Free T y k) : Free T y l

theorem scope_of_freeIn {S : Name → Prop} {bindings : List (Name × Arith)} {names : List Name} {y : Name}
    (inside : BindsScoped S bindings) (behind : ∀ x ∈ names, extend S bindings x) (used : y ∈ freeIn bindings names) :
    S y := by
  induction bindings generalizing S with
  | nil => exact behind y used
  | cons b bindings ih =>
    rcases List.mem_append.mp used with first | later
    · exact inside.1 y first
    · obtain ⟨later, other⟩ := List.mem_filter.mp later
      exact (ih inside.2 behind later).resolve_left (of_decide_eq_true other)

theorem Sealed.scope {T : Blocks} {S : Name → Prop} {l : Nat} {y : Name} (closed : Sealed T S l) (free : Free T y l) :
    S y := by
  induction free generalizing S with
  | here here used =>
    obtain ⟨there, inside, _⟩ := closed
    rw [here] at there
    cases there
    exact scope_of_freeIn inside.1 inside.2 used
  | later here unbound next _ ih =>
    obtain ⟨there, _, rest⟩ := closed
    rw [here] at there
    cases there
    exact (extend_iff.mp (ih (rest _ next))).resolve_right unbound

namespace Program.Correct

variable {P : Program} (correct : P.Correct)

include correct

/-- What is known at the block is bound elsewhere than in `a`. -/
def KnownWithout (P : Program) (a m : Nat) : Prop := ∃ S : Name → Prop, Sealed P.blocks S m ∧
  ∀ y, S y → y = .len ∨ ∃ x B, x ≠ a ∧ P.Reached x ∧ P.blocks x = some B ∧ y ∈ B.names

theorem knownWithout_start (a : Nat) : KnownWithout P a P.start := ⟨(· = .len), correct.closed, fun _ => .inl⟩

omit correct in
theorem KnownWithout.step {a p m : Nat} (before : KnownWithout P a p) (reach : P.Reached p) (other : p ≠ a)
    (edge : Edge P.blocks.graph p m) : KnownWithout P a m := by
  obtain ⟨S, @⟨_, _, B, here, _, next⟩, known⟩ := before
  refine ⟨extend S B.bindings, next m (Blocks.mem_targets here edge), fun y inScope => ?_⟩
  rcases extend_iff.mp inScope with old | own
  · exact known y old
  · exact .inr ⟨p, B, other, reach, here, own⟩

/-- At the end of a path that does not go through `a`. -/
theorem knownWithout_of_avoids {a m : Nat} (avoids : Avoids P.blocks.graph P.start a m) : KnownWithout P a m := by
  induction avoids with
  | start => exact correct.knownWithout_start a
  | step before edge _ ih => exact ih.step before.reach before.ne edge

/-- A block that is not strictly above can be avoided on the way to a block, up to the block itself. -/
theorem knownWithout_of_not_above {a m : Nat} (reach : P.Reached m) (notAbove : ¬(a ≠ m ∧ P.Dom a m)) :
    KnownWithout P a m := by
  by_cases same : a = m
  · subst same
    rcases Relation.ReflTransGen.cases_tail reach with first | ⟨p, before, edge⟩
    · rw [first]
      exact correct.knownWithout_start _
    · have avoids : Avoids P.blocks.graph P.start a p := by
        by_contra dominates
        have back := Dominates.reach dominates before
        exact (correct.closed.finite.of_reach reach).acyclic (Relation.TransGen.tail' back edge)
      exact (correct.knownWithout_of_avoids avoids).step before avoids.ne edge
  · refine correct.knownWithout_of_avoids ?_
    by_contra dominates
    exact notAbove ⟨same, dominates⟩

/-- What is used behind a block is bound in a block that every path to it goes through. -/
theorem bound_above {y : Name} {m : Nat} (reach : P.Reached m) (free : Free P.blocks y m) :
    y = .len ∨ ∃ a B, a ≠ m ∧ P.Dom a m ∧ P.blocks a = some B ∧ y ∈ B.names := by
  by_cases length : y = .len
  · exact .inl length
  refine .inr ?_
  obtain ⟨S, closed, known⟩ := correct.knownWithout_of_not_above (a := m) reach fun ⟨other, _⟩ => other rfl
  obtain ⟨x, B, _, reachX, here, member⟩ := (known y (closed.scope free)).resolve_left length
  by_contra unbound
  have notAbove : ¬(x ≠ m ∧ P.Dom x m) := fun ⟨other, dominates⟩ =>
    unbound ⟨x, B, other, dominates, here, member⟩
  obtain ⟨S', closed', known'⟩ := correct.knownWithout_of_not_above reach notAbove
  obtain ⟨x', B', other, reachX', here', member'⟩ := (known' y (closed'.scope free)).resolve_left length
  exact other (correct.once.across x' x B' B y reachX' reachX here' here member' member)

end Program.Correct

end Pf

end MoonGen
