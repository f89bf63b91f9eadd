import MoonGen.Pf.Ssa

namespace MoonGen

open List Option

namespace Pf

open FlowGraph

def Relop.inverse : Relop → Relop
  | .lt => .ge
  | .le => .gt
  | .eq => .ne
  | .ne => .eq
  | .ge => .lt
  | .gt => .le

/-- `invert_bool`. -/
def Test.invert : Test → Test
  | .const b => .const !b
  | .rel op l r => .rel op.inverse l r

def computeUseCounts (fuel : Nat) (p : Ssa) : Option (Nat → Nat) :=
  (walk p.blocks.graph arrivals (fun _ counts => counts) fuel p.start ⟨[], fun _ => 0⟩).map Walk.state

def Control.isSimple : Control → Bool
  | .ret (.test (.const _)) => true
  | .goto _ => true
  | _ => false

def Block.isSimple (B : Block) : Bool := B.bindings.isEmpty && B.control.isSimple

/-- What a block returns that does nothing else. -/
def Block.constant (B : Block) : Option Bool :=
  match B.bindings, B.control with
  | [], .ret (.test (.const b)) => some b
  | _, _ => none

/-- Where a jump to the block ends up. -/
def Block.skip (k : Nat) (K : Block) : Nat :=
  match K.bindings, K.control with
  | [], .goto k' => k'
  | _, _ => k

def joinGoto (uses : Nat → Nat) (B : Block) (k : Nat) (K : Block) : Block :=
  if K.isSimple || uses k == 1 then ⟨B.bindings ++ K.bindings, K.control⟩ else B

def joinBranch (B : Block) (test : Test) (kt kf : Nat) (t f : Block) : Block :=
  match t.constant, f.constant with
  | some tVal, some fVal =>
    if tVal = fVal then ⟨B.bindings, .ret (.test (.const tVal))⟩
    else if tVal then ⟨B.bindings, .ret (.test test)⟩
    else ⟨B.bindings, .ret (.test test.invert)⟩
  | _, _ => ⟨B.bindings, .branch test (t.skip kt) (f.skip kf)⟩

/-- The blocks of the result that are there already, the last first. -/
structure Simplifying where
  labels : List Nat
  blocks : Blocks

def Simplifying.add (result : Simplifying) (label : Nat) (B : Block) : Block × Simplifying :=
  (B, ⟨label :: result.labels, result.blocks.bind label B⟩)

def simplifyVisit (T : Blocks) (uses : Nat → Nat) : Nat → Nat → Simplifying → Option (Block × Simplifying)
  | 0, _, _ => none
  | fuel + 1, label, result =>
    match result.blocks label with
    | some B => some (B, result)
    | none => (T label).bind fun B =>
      match B.control with
      | .branch test kt kf => (simplifyVisit T uses fuel kt result).bind fun t =>
        (simplifyVisit T uses fuel kf t.2).map fun f => f.2.add label (joinBranch B test kt kf t.1 f.1)
      | .goto k => (simplifyVisit T uses fuel k result).map fun r => r.2.add label (joinGoto uses B k r.1)
      | .ret _ => some (result.add label B)

def simplify (fuel : Nat) (p : Ssa) : Option Ssa := (computeUseCounts fuel p).bind fun uses =>
  (simplifyVisit p.blocks uses fuel p.start ⟨[], .empty⟩).map fun r => ⟨p.start, r.2.labels, r.2.blocks⟩

def Ssa.equals (p q : Ssa) : Bool :=
  p.start == q.start && (p.labels ++ q.labels).all fun l => decide (p.blocks l = q.blocks l)

/-- `fixpoint` of `simplify`. -/
def optimizeSsa : Nat → Ssa → Option Ssa
  | 0, _ => none
  | fuel + 1, p => (simplify fuel p).bind fun q => if q.equals p then some q else optimizeSsa fuel q

/-- What becomes of a block, by what becomes of those behind it. -/
def Block.join (uses : Nat → Nat) (B : Block) (K : Nat → Block) : Block :=
  match B.control with
  | .branch test kt kf => joinBranch B test kt kf (K kt) (K kf)
  | .goto k => joinGoto uses B k (K k)
  | .ret _ => B

theorem Block.join_congr (uses : Nat → Nat) {B : Block} {K K' : Nat → Block}
    (same : ∀ k ∈ B.control.targets, K k = K' k) : B.join uses K = B.join uses K' := by
  unfold join
  cases control : B.control with
  | ret r => rfl
  | goto k =>
    rw [control] at same
    simp only [same k mem_cons_self]
  | branch test kt kf =>
    rw [control] at same
    simp only [same kt mem_cons_self, same kf (mem_cons_of_mem _ mem_cons_self)]

/-- The table has the values of the blocks that are listed. -/
def Simplifying.Holds (result : Simplifying) (val : Nat → Block) : Prop :=
  ∀ l, result.blocks l = if l ∈ result.labels then some (val l) else none

theorem Simplifying.Holds.add {result : Simplifying} {val : Nat → Block} (holds : result.Holds val) (l : Nat) :
    (result.add l (val l)).2.Holds val := by
  intro m
  show (result.blocks.bind l (val l)) m = if m ∈ l :: result.labels then some (val m) else none
  by_cases same : m = l
  · rw [same, Environment.bind_self, if_pos mem_cons_self]
  · rw [Environment.bind_of_ne same, holds m]
    simp only [mem_cons, same, false_or]

/-- A block does not come up again behind itself, so it is added once. -/
theorem simplifyVisit_settles {T : Blocks} {uses : Nat → Nat} {val : Nat → Block}
    (values : ∀ l B, Finite T.graph l → T l = some B → val l = B.join uses val) {l : Nat} (finite : Finite T.graph l)
    {result : Simplifying} (holds : result.Holds val) :
    ∃ new after, Settles (simplifyVisit T uses · l result) (val l, after) ∧ after.Holds val ∧
      Walked T.graph [l] new result.labels after.labels := by
  induction finite generalizing result with
  | @mk l ks node next ih =>
    obtain ⟨B, here, rfl⟩ := map_eq_some_iff.mp node
    have value := values l B (.mk node next) here
    by_cases seen : l ∈ result.labels
    · refine ⟨[], result, .of_succ (fun fuel => ?_) (.of_eq fun _ => rfl), holds, .seen seen⟩
      rw [simplifyVisit, holds l, if_pos seen]
    have unknown : result.blocks l = none := by rw [holds l, if_neg seen]
    have behind : ∃ new, ∃ after : Simplifying, Settles (simplifyVisit T uses · l result) (after.add l (val l)) ∧
        after.Holds val ∧ Walked T.graph B.control.targets new result.labels after.labels := by
      unfold Block.join at value
      cases control : B.control with
      | ret v =>
        simp only [control] at value
        refine ⟨[], result, .of_succ (fun fuel => ?_) (.of_eq fun _ => rfl), holds, .nil _⟩
        simp only [simplifyVisit, unknown, here, bind_some, control, value]
      | goto k =>
        simp only [control] at value ih
        obtain ⟨new, after, visits, holds', walked⟩ := ih k mem_cons_self holds
        refine ⟨new, after, value ▸ .of_succ (fun fuel => ?_) (visits.map fun r => r.2.add l (joinGoto uses B k r.1)),
          holds', walked⟩
        simp only [simplifyVisit, unknown, here, bind_some, control]
      | branch test kt kf =>
        simp only [control] at value ih
        obtain ⟨new, after, visits, holds', walked⟩ := ih kt mem_cons_self holds
        obtain ⟨new', after', visits', holds'', walked'⟩ := ih kf (mem_cons_of_mem _ mem_cons_self) holds'
        have both := visits.bind (g := fun t fuel => (simplifyVisit T uses fuel kf t.2).map fun f =>
          f.2.add l (joinBranch B test kt kf t.1 f.1)) (visits'.map _)
        refine ⟨new' ++ new, after', value ▸ .of_succ (fun fuel => ?_) both, holds'', walked.append walked'⟩
        simp only [simplifyVisit, unknown, here, bind_some, control]
    obtain ⟨new, after, visits, holds', walked⟩ := behind
    exact ⟨l :: new, _, visits, holds'.add l, walked.finish node (.mk node next) seen⟩

/-- What the pass makes of a program. A block that is used once has one block before it. -/
structure Simplifies (p q : Ssa) (uses : Nat → Nat) (val : Nat → Block) : Prop where
  start : q.start = p.start
  distinct : q.labels.Nodup
  keys : ∀ l, l ∈ q.labels ↔ p.Reached l
  blocks : ∀ l, q.blocks l = if l ∈ q.labels then some (val l) else none
  value : ∀ l B, p.Reached l → p.blocks l = some B → val l = B.join uses val
  single : ∀ l k, p.Reached l → Edge p.blocks.graph l k → uses k = 1 →
    k ≠ p.start ∧ ∀ m, p.Reached m → Edge p.blocks.graph m k → m = l

theorem simplify_settles {p : Ssa} (finite : Finite p.blocks.graph p.start) :
    ∃ q uses val, Settles (simplify · p) q ∧ Simplifies p q uses val := by
  obtain ⟨w, counts⟩ := walk_settles arrivals (fun _ counts => counts) finite ⟨[], fun _ => 0⟩
  have : Nonempty Block := ⟨⟨[], .goto 0⟩⟩
  obtain ⟨val, values⟩ := exists_values (G := p.blocks.graph)
    (fun l K => (p.blocks l).elim (K l) fun B => B.join w.state K) fun l ks K K' node same => by
      obtain ⟨B, here, rfl⟩ := map_eq_some_iff.mp node
      rw [here]
      exact Block.join_congr w.state same
  have value : ∀ l B, Finite p.blocks.graph l → p.blocks l = some B → val l = B.join w.state val := by
    intro l B finite here
    rw [values l finite, here]
    rfl
  have first : Simplifying.Holds ⟨[], .empty⟩ val := fun l => rfl
  obtain ⟨new, r, visits, holds, walked⟩ := simplifyVisit_settles value finite first
  obtain ⟨_, distinct, met⟩ := walked.met
  refine ⟨⟨p.start, r.labels, r.blocks⟩, w.state, val, ?_, rfl, distinct, met, holds, fun l B reach =>
    value l B (finite.of_reach reach), fun l k reach edge once => ?_⟩
  · unfold simplify
    exact (counts.map Walk.state).bind (visits.map _)
  · obtain ⟨enough, walked⟩ := counts
    exact arrivals_one (walked enough (Nat.le_refl _)) once reach edge

/-- A comparison and its inverse differ. -/
def Meaning.Inverts {α : Type} (M : Meaning α) : Prop := ∀ op a b, M.rel op.inverse a b = !M.rel op a b

theorem Test.eval_invert {α : Type} {M : Meaning α} {ρ : Env α} (inverts : M.Inverts) {t : Test} {c : Bool}
    (known : t.eval M ρ = some c) :
    t.invert.eval M ρ = some !c := by
  cases t with
  | const b =>
    cases known
    rfl
  | rel op l r =>
    obtain ⟨a, left, rest⟩ := bind_eq_some_iff.mp known
    obtain ⟨d, right, rfl⟩ := map_eq_some_iff.mp rest
    rw [invert, eval, left, bind_some, right, map_some, inverts op a d]

theorem Block.constant_iff {B : Block} {v : Bool} :
    B.constant = some v ↔ B.bindings = [] ∧ B.control = .ret (.test (.const v)) := by
  unfold constant
  split
  · rename_i empty control
    simp [empty, control]
  · rename_i other
    simp only [reduceCtorEq, false_iff]
    exact fun ⟨empty, control⟩ => other v empty control

theorem Block.skip_cases (k : Nat) (K : Block) :
    (∃ k', K.bindings = [] ∧ K.control = .goto k' ∧ K.skip k = k') ∨ K.skip k = k := by
  unfold skip
  split
  · rename_i k' empty control
    exact .inl ⟨k', empty, control, rfl⟩
  · exact .inr rfl

/-- The second test says what comes of a block that tests the first and then returns one of two constants. -/
structure Test.Decides (test : Test) (vt vf : Bool) (test' : Test) : Prop where
  names : ∀ x ∈ test'.names, x ∈ test.names
  eval : ∀ {α : Type} {M : Meaning α} {ρ : Env α} {c : Bool}, M.Inverts → test.eval M ρ = some c →
    test'.eval M ρ = some (if c then vt else vf)

/-- The ways to join a block with those behind it. -/
inductive Joined (uses : Nat → Nat) (B : Block) (K : Nat → Block) : Block → Prop
  | same : Joined uses B K B
  | merged {k : Nat} (control : B.control = .goto k) (free : (K k).bindings = [] ∨ uses k = 1) :
      Joined uses B K ⟨B.bindings ++ (K k).bindings, (K k).control⟩
  | decided {test test' : Test} {kt kf : Nat} {vt vf : Bool} (control : B.control = .branch test kt kf)
      (onTrue : (K kt).constant = some vt) (onFalse : (K kf).constant = some vf) (decides : test.Decides vt vf test') :
      Joined uses B K ⟨B.bindings, .ret (.test test')⟩
  | skipped {test : Test} {kt kf : Nat} (control : B.control = .branch test kt kf) :
      Joined uses B K ⟨B.bindings, .branch test ((K kt).skip kt) ((K kf).skip kf)⟩

theorem Block.joined (uses : Nat → Nat) (B : Block) (K : Nat → Block) : Joined uses B K (B.join uses K) := by
  unfold join
  cases control : B.control with
  | ret r => exact .same
  | goto k =>
    simp only [joinGoto]
    split
    · rename_i free
      rw [Bool.or_eq_true, isSimple, Bool.and_eq_true, List.isEmpty_iff, beq_iff_eq] at free
      exact .merged control (free.imp_left And.left)
    · exact .same
  | branch test kt kf =>
    simp only [joinBranch]
    split
    · rename_i vt vf onTrue onFalse
      split
      · rename_i same
        refine .decided control onTrue onFalse ⟨forall_mem_nil _, fun _ _ => ?_⟩
        rw [same, ite_self]
        rfl
      · rename_i other
        cases vt <;> cases vf <;> first | exact absurd rfl other | skip
        · refine .decided control onTrue onFalse ⟨fun x member => ?_, fun {_ _ _ c} inverts known => ?_⟩
          · cases test <;> exact member
          · exact (Test.eval_invert inverts known).trans (by cases c <;> rfl)
        · exact .decided control onTrue onFalse ⟨fun x member => member, fun {_ _ _ c} _ known =>
            known.trans (by cases c <;> rfl)⟩
    · exact .skipped control

section Runs
variable {α : Type} {M : Meaning α} {T : Blocks} {ρ : Env α} {n k : Nat} {K : Block} {b : Bool}

theorem Runs.cases (runs : Runs M T n ρ k b) (here : T k = some K) :
    ∃ ρ', bindAll M K.bindings ρ = some ρ' ∧ (K.control.next M ρ' = some (.inl b) ∨
      ∃ n' k', K.control.next M ρ' = some (.inr k') ∧ Runs M T n' ρ' k' b) := by
  cases runs with
  | done there bound last =>
    rw [here] at there
    cases there
    exact ⟨_, bound, .inl last⟩
  | step there bound jump rest =>
    rw [here] at there
    cases there
    exact ⟨_, bound, .inr ⟨_, _, jump, rest⟩⟩

theorem Runs.of_constant {v : Bool} (runs : Runs M T n ρ k b) (here : T k = some K) (constant : K.constant = some v) :
    b = v := by
  obtain ⟨_, _, last | ⟨_, _, jump, _⟩⟩ := runs.cases here
  all_goals rw [(Block.constant_iff.mp constant).2] at *
  · cases last
    rfl
  · cases jump

theorem Runs.skip (runs : Runs M T n ρ k b) (here : T k = some K) : ∃ n', Runs M T n' ρ (K.skip k) b := by
  rcases K.skip_cases k with ⟨k', empty, control, same⟩ | same
  · rw [same]
    obtain ⟨_, bound, last | ⟨n', _, jump, rest⟩⟩ := runs.cases here
    all_goals rw [control] at *
    · cases last
    · rw [empty] at bound
      cases jump
      cases bound
      exact ⟨n', rest⟩
  · rw [same]
    exact ⟨n, runs⟩

/-- A block that does what another does after some bindings. -/
theorem Runs.prepend {l : Nat} {first : List (Name × Arith)} {ρ₀ : Env α} (runs : Runs M T n ρ k b) (here : T k = some K)
    (there : T l = some ⟨first ++ K.bindings, K.control⟩) (bound : bindAll M first ρ₀ = some ρ) :
    ∃ n', Runs M T n' ρ₀ l b := by
  obtain ⟨ρ', bound', rest⟩ := runs.cases here
  have both : bindAll M (first ++ K.bindings) ρ₀ = some ρ' := by rw [bindAll_append, bound, bind_some, bound']
  rcases rest with last | ⟨_, _, jump, rest⟩
  · exact ⟨_, .done there both last⟩
  · exact ⟨_, .step there both jump rest⟩

end Runs

section Sealed
variable {T : Blocks} {S : Name → Prop} {k : Nat} {K : Block}

theorem Sealed.skip (closed : Sealed T S k) (here : T k = some K) : Sealed T S (K.skip k) := by
  rcases K.skip_cases k with ⟨k', empty, control, same⟩ | same
  · rw [same]
    obtain ⟨there, _, next⟩ := closed
    rw [here] at there
    cases there
    have target := next k' (by rw [control]; exact mem_cons_self)
    rwa [empty] at target
  · rwa [same]

theorem Sealed.prepend {l : Nat} {first : List (Name × Arith)} (closed : Sealed T (extend S first) k)
    (here : T k = some K) (there : T l = some ⟨first ++ K.bindings, K.control⟩) (inside : BindsScoped S first) :
    Sealed T S l := by
  obtain ⟨here', scope, next⟩ := closed
  rw [here] at here'
  cases here'
  have same : extend S (first ++ K.bindings) = extend (extend S first) K.bindings := extend_append
  refine .mk there ⟨inside.append scope.1, ?_⟩ ?_
  · rw [same]
    exact scope.2
  · rw [same]
    exact next

end Sealed

/-- The second block becomes a part of the first. -/
def Merged (p : Ssa) (uses : Nat → Nat) (l k : Nat) : Prop :=
  p.Reached l ∧ (∃ B, p.blocks l = some B ∧ B.control = .goto k) ∧ uses k = 1

theorem Merged.reach {p : Ssa} {uses : Nat → Nat} {l o : Nat} (chain : Relation.ReflTransGen (Merged p uses) l o) :
    Reach p.blocks.graph l o := by
  induction chain with
  | refl => exact .refl
  | tail _ merged ih =>
    obtain ⟨_, ⟨B, here, control⟩, _⟩ := merged
    exact ih.tail (Blocks.edge_of_goto here control)

namespace Simplifies

variable {p q : Ssa} {uses : Nat → Nat} {val : Nat → Block} (simplifies : Simplifies p q uses val)

include simplifies

theorem found {l : Nat} (reach : p.Reached l) : q.blocks l = some (val l) := by
  rw [simplifies.blocks, if_pos ((simplifies.keys l).mpr reach)]

theorem reached {l : Nat} {C : Block} (there : q.blocks l = some C) : p.Reached l ∧ C = val l := by
  rw [simplifies.blocks] at there
  split at there
  · rename_i listed
    cases there
    exact ⟨(simplifies.keys l).mp listed, rfl⟩
  · cases there

theorem joined {l : Nat} {B : Block} (reach : p.Reached l) (here : p.blocks l = some B) :
    Joined uses B val (val l) := by
  rw [simplifies.value l B reach here]
  exact B.joined uses val

theorem runs {α : Type} {M : Meaning α} {ρ : Env α} {n l : Nat} {b : Bool} (inverts : M.Inverts)
    (runs : Runs M p.blocks n ρ l b) (reach : p.Reached l) : ∃ n', Runs M q.blocks n' ρ l b := by
  induction runs with
  | @done ρ ρ' l B b here bound last =>
    have there := simplifies.found reach
    have joined := simplifies.joined reach here
    obtain ⟨r, control, _⟩ := Control.next_inl last
    generalize val l = C at there joined
    cases joined with
    | same => exact ⟨0, .done there bound last⟩
    | merged other | decided other | skipped other => cases control.symm.trans other
  | @step n ρ ρ' l k B b here bound jump rest ih =>
    have there := simplifies.found reach
    have joined := simplifies.joined reach here
    have behind : ∀ k ∈ B.control.targets, q.blocks k = some (val k) := fun k member =>
      simplifies.found (reach.tail (Blocks.edge_iff.mpr ⟨B, here, member⟩))
    obtain ⟨n', runs'⟩ := ih (reach.tail (Blocks.edge_iff.mpr ⟨B, here, Control.mem_targets_of_next jump⟩))
    generalize val l = C at there joined
    cases joined with
    | same => exact ⟨n' + 1, .step there bound jump runs'⟩
    | merged control =>
      rw [control] at jump behind
      cases jump
      exact runs'.prepend (behind k mem_cons_self) there bound
    | @decided test test' kt kf vt vf control onTrue onFalse decides =>
      rw [control] at jump behind
      obtain ⟨c, known, same⟩ := map_eq_some_iff.mp jump
      cases same
      have value : b = if c then vt else vf := by
        cases c with
        | true => exact runs'.of_constant (behind kt mem_cons_self) onTrue
        | false => exact runs'.of_constant (behind kf (mem_cons_of_mem _ mem_cons_self)) onFalse
      refine ⟨0, .done there bound ?_⟩
      rw [value, Control.next, Result.eval, decides.eval inverts known, map_some]
    | @skipped test kt kf control =>
      rw [control] at jump behind
      obtain ⟨c, known, same⟩ := map_eq_some_iff.mp jump
      cases same
      have skipped : ∃ n', Runs M q.blocks n' ρ' (if c then (val kt).skip kt else (val kf).skip kf) b := by
        cases c with
        | true => exact runs'.skip (behind kt mem_cons_self)
        | false => exact runs'.skip (behind kf (mem_cons_of_mem _ mem_cons_self))
      obtain ⟨n'', runs''⟩ := skipped
      refine ⟨n'' + 1, .step there bound ?_ runs''⟩
      rw [Control.next, known, map_some]

theorem closed {S : Name → Prop} {l : Nat} (closed : Sealed p.blocks S l) (reach : p.Reached l) :
    Sealed q.blocks S l := by
  induction closed with
  | @mk S l B here inside next ih =>
    have there := simplifies.found reach
    have joined := simplifies.joined reach here
    have behind : ∀ k ∈ B.control.targets, p.Reached k := fun k member =>
      reach.tail (Blocks.edge_iff.mpr ⟨B, here, member⟩)
    have target : ∀ k ∈ B.control.targets, Sealed q.blocks (extend S B.bindings) ((val k).skip k) := fun k member =>
      (ih k member (behind k member)).skip (simplifies.found (behind k member))
    generalize val l = C at there joined
    cases joined with
    | same => exact .mk there inside fun k member => ih k member (behind k member)
    | @merged k control =>
      have member : k ∈ B.control.targets := by rw [control]; exact mem_cons_self
      exact (ih k member (behind k member)).prepend (simplifies.found (behind k member)) there inside.1
    | decided control _ _ decides =>
      rw [Block.Scoped, control] at inside
      exact .mk there ⟨inside.1, fun x member => inside.2 x (decides.names x member)⟩ fun k jump => absurd jump not_mem_nil
    | skipped control =>
      rw [Block.Scoped, control] at inside
      rw [control] at target
      obtain ⟨onTrue, onFalse⟩ := forall_mem_cons.mp target
      exact .leaf there inside (List.Subset.refl _) ⟨onTrue, onFalse _ (mem_singleton_self _)⟩

/-- Where the result goes on to was gone on to before, from a block that still does. -/
theorem target {l m : Nat} (finite : Finite p.blocks.graph l) (reach : p.Reached l)
    (member : m ∈ (val l).control.targets) :
    ∃ o, Reach p.blocks.graph l o ∧ Edge p.blocks.graph o m ∧ m ∈ (val o).control.targets := by
  induction finite with
  | @mk l ks node next ih =>
    obtain ⟨B, here, rfl⟩ := map_eq_some_iff.mp node
    have edge : ∀ k ∈ B.control.targets, Edge p.blocks.graph l k := fun k target => ⟨_, node, target⟩
    have through : ∀ k ∈ B.control.targets, m ∈ (val k).control.targets →
        ∃ o, Reach p.blocks.graph l o ∧ Edge p.blocks.graph o m ∧ m ∈ (val o).control.targets := by
      intro k target inside
      obtain ⟨o, behind, rest⟩ := ih k target (reach.tail (edge k target)) inside
      exact ⟨o, .head (edge k target) behind, rest⟩
    have joined := simplifies.joined reach here
    have whole := member
    generalize val l = C at joined member
    cases joined with
    | same => exact ⟨l, .refl, edge m member, whole⟩
    | merged control => exact through _ (by rw [control]; exact mem_cons_self) member
    | decided => cases member
    | @skipped test kt kf control =>
      obtain ⟨k, target, rfl⟩ : ∃ k ∈ B.control.targets, m = (val k).skip k := by
        rw [control]
        rcases mem_cons.mp member with first | second
        · exact ⟨kt, mem_cons_self, first⟩
        · exact ⟨kf, mem_cons_of_mem _ mem_cons_self, mem_singleton.mp second⟩
      rcases (val k).skip_cases k with ⟨k', _, goto, skipped⟩ | skipped
      · exact through k target (by rw [goto, skipped]; exact mem_cons_self)
      · exact ⟨l, .refl, by rw [skipped]; exact edge k target, whole⟩

section Names
variable (finite : Finite p.blocks.graph p.start)

include finite

theorem edge {l m : Nat} (edge : Edge q.blocks.graph l m) :
    p.Reached l ∧ ∃ o, Reach p.blocks.graph l o ∧ Edge p.blocks.graph o m ∧ m ∈ (val o).control.targets := by
  obtain ⟨C, there, member⟩ := Blocks.edge_iff.mp edge
  obtain ⟨reach, rfl⟩ := simplifies.reached there
  exact ⟨reach, simplifies.target (finite.of_reach reach) reach member⟩

theorem not_reach_of_merged {l k : Nat} (merged : Merged p uses l k) : ¬q.Reached k := by
  obtain ⟨reach, ⟨B, here, control⟩, once⟩ := merged
  have edge := Blocks.edge_of_goto here control
  obtain ⟨notStart, only⟩ := simplifies.single l k reach edge once
  intro still
  rcases Relation.ReflTransGen.cases_tail still with same | ⟨m, _, last⟩
  · exact notStart (same.trans simplifies.start)
  · obtain ⟨reachM, o, behind, edge', member⟩ := simplifies.edge finite last
    obtain rfl := only o (reachM.trans behind) edge'
    have value : val o = ⟨B.bindings ++ (val k).bindings, (val k).control⟩ := by
      rw [simplifies.value o B reach here, Block.join, control]
      exact if_pos (by rw [once]; exact Bool.or_true _)
    rw [value] at member
    have reach' := reach.tail edge
    obtain ⟨o', around, back, _⟩ := simplifies.target (finite.of_reach reach') reach' member
    exact (finite.of_reach reach').acyclic (Relation.TransGen.tail' around back)

omit finite in
theorem origin {l : Nat} {x : Name} (finite : Finite p.blocks.graph l) (reach : p.Reached l)
    (member : x ∈ (val l).names) :
    ∃ o B, Relation.ReflTransGen (Merged p uses) l o ∧ p.blocks o = some B ∧ x ∈ B.names := by
  induction finite with
  | @mk l ks node next ih =>
    obtain ⟨B, here, rfl⟩ := map_eq_some_iff.mp node
    have joined := simplifies.joined reach here
    generalize val l = C at joined member
    cases joined with
    | same | decided | skipped => exact ⟨l, B, .refl, here, member⟩
    | @merged k control free =>
      rw [Block.names, map_append, mem_append] at member
      rcases member with own | merged
      · exact ⟨l, B, .refl, here, own⟩
      · rcases free with empty | once
        · rw [empty] at merged
          cases merged
        · have target : k ∈ B.control.targets := by rw [control]; exact mem_cons_self
          obtain ⟨o, O, chain, there, named⟩ := ih k target (reach.tail ⟨_, node, target⟩) merged
          exact ⟨o, O, .head ⟨reach, ⟨B, here, control⟩, once⟩ chain, there, named⟩

omit finite in
theorem names_nodup {l : Nat} (finite : Finite p.blocks.graph l) (wf : p.WellFormed) (reach : p.Reached l) :
    (val l).names.Nodup := by
  induction finite with
  | @mk l ks node next ih =>
    obtain ⟨B, here, rfl⟩ := map_eq_some_iff.mp node
    have own := wf.once.within l B reach here
    have joined := simplifies.joined reach here
    generalize val l = C at joined
    cases joined with
    | same | decided | skipped => exact own
    | @merged k control free =>
      have target : k ∈ B.control.targets := by rw [control]; exact mem_cons_self
      have reach' := reach.tail ⟨_, node, target⟩
      rw [Block.names, map_append]
      refine nodup_append.mpr ⟨own, ih k target reach', fun x first y second same => ?_⟩
      obtain ⟨o, O, chain, there, named⟩ := simplifies.origin (next k target) reach' second
      have around := Merged.reach chain
      obtain rfl := wf.once.across l o B O x reach (reach'.trans around) here there first (same ▸ named)
      exact (wf.closed.finite.of_reach reach).acyclic (.head' ⟨_, node, target⟩ around)

end Names

/-- The pass keeps the form: a block that is copied into another is not reached any more. -/
theorem wellFormed (wf : p.WellFormed) : q.WellFormed := by
  have finite := wf.closed.finite
  have source : ∀ {l C x}, q.Reached l → q.blocks l = some C → x ∈ C.names →
      ∃ o B, Relation.ReflTransGen (Merged p uses) l o ∧ p.Reached o ∧ p.blocks o = some B ∧ x ∈ B.names := by
    intro l C x _ there member
    obtain ⟨reach, rfl⟩ := simplifies.reached there
    obtain ⟨o, B, chain, here, named⟩ := simplifies.origin (finite.of_reach reach) reach member
    exact ⟨o, B, chain, reach.trans (Merged.reach chain), here, named⟩
  refine ⟨fun l C there => (simplifies.keys l).mpr (simplifies.reached there).1,
    simplifies.start ▸ simplifies.closed wf.closed .refl, ⟨fun l C _ there => ?_, ?_⟩, fun l C reach there member => ?_⟩
  · obtain ⟨reach, rfl⟩ := simplifies.reached there
    exact simplifies.names_nodup (finite.of_reach reach) wf reach
  · intro l m C D x reachL reachM there there' member member'
    obtain ⟨o, O, chain, reach, here, named⟩ := source reachL there member
    obtain ⟨o', O', chain', reach', here', named'⟩ := source reachM there' member'
    obtain rfl := wf.once.across o o' O O' x reach reach' here here' named named'
    have unique : Relator.RightUnique (Function.swap (Merged p uses)) := by
      rintro k a b ⟨reachA, ⟨A, hereA, controlA⟩, once⟩ ⟨reachB, ⟨B, hereB, controlB⟩, _⟩
      exact ((simplifies.single a k reachA (Blocks.edge_of_goto hereA controlA) once).2 b reachB
        (Blocks.edge_of_goto hereB controlB)).symm
    have last : ∀ {a b : Nat}, Relation.ReflTransGen (Function.swap (Merged p uses)) a b → q.Reached a → a = b := by
      intro a b way reached
      rcases Relation.ReflTransGen.cases_head way with same | ⟨c, merged, _⟩
      · exact same
      · exact absurd reached (simplifies.not_reach_of_merged finite merged)
    rcases Relation.ReflTransGen.total_of_right_unique unique chain.swap chain'.swap with way | way
    · exact last way reachL
    · exact (last way reachM).symm
  · obtain ⟨o, O, _, reach, here, named⟩ := source reach there member
    exact wf.others o O reach here named

end Simplifies

end Pf

end MoonGen
