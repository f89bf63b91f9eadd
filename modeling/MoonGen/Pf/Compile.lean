import MoonGen.Pf.Anf
import MoonGen.Pf.Expand
import MoonGen.Pf.Scope

namespace MoonGen

open List

namespace Pf

open FlowGraph

/-- No name but the length occurs. -/
structure LenOnly (out : Arith × List Guard) : Prop where
  names : ∀ x ∈ out.1.names, x = .len
  guards : ∀ g ∈ out.2, g.test.Scoped (· = .len)

theorem LenOnly.num (n : Int) : LenOnly (.num n, []) :=
  ⟨forall_mem_nil _, forall_mem_nil _⟩

theorem LenOnly.both {out out' : Arith × List Guard} {e : Arith} {gs : List Guard} (first : LenOnly out)
    (second : LenOnly out') (names : (∀ x ∈ out.1.names ++ out'.1.names, x = .len) → ∀ x ∈ e.names, x = .len)
    (own : (∀ x ∈ out.1.names ++ out'.1.names, x = .len) → ∀ g ∈ gs, g.test.Scoped (· = .len)) :
    LenOnly (e, out.2 ++ out'.2 ++ gs) := by
  have both : ∀ x ∈ out.1.names ++ out'.1.names, x = .len := fun x member =>
    (mem_append.mp member).elim (first.names x) (second.names x)
  refine ⟨names both, fun g member => ?_⟩
  rcases mem_append.mp member with old | new
  · exact (mem_append.mp old).elim (first.guards g) (second.guards g)
  · exact own both g new

theorem inside_scoped {l r : Arith} {n : Int} (names : ∀ x ∈ l.names ++ r.names, x = .len) :
    (.rel .le (.bin .add (.bin .add l r) (.num n)) (.name .len) : Filter).Scoped (· = .len) := by
  refine ⟨fun x member => names x ?_, fun x member => mem_singleton.mp member⟩
  exact (mem_append.mp member).elim id fun inside => absurd inside not_mem_nil

section
variable {L : Type} {offset : L → Arith × List Guard} (offsets : ∀ l, LenOnly (offset l))

include offsets

theorem expandArith_lenOnly (e : Expr L) : LenOnly (expandArith offset e) := by
  induction e with
  | num n => exact .num n.toNat
  | len => exact ⟨fun x member => mem_singleton.mp member, forall_mem_nil _⟩
  | bin op l r ihl ihr =>
    refine ihl.both ihr id fun _ g member => ?_
    split at member
    · cases mem_singleton.mp member
      exact ⟨ihr.names, forall_mem_nil _⟩
    · cases member
  | load level pos width ih =>
    refine (offsets level).both ih (fun names x member => names x ?_) fun names g member => ?_
    · cases width <;> exact member
    · cases mem_singleton.mp member
      exact inside_scoped names
  | addr level pos width ih =>
    refine (offsets level).both ih id fun names g member => ?_
    cases mem_singleton.mp member
    exact inside_scoped names

theorem expandRelop_scoped (c : Comparison L) : (expandRelop offset c).1.Scoped (· = .len) ∧
    ∀ g ∈ (expandRelop offset c).2, g.test.Scoped (· = .len) := by
  have left := expandArith_lenOnly offsets c.l
  have right := expandArith_lenOnly offsets c.r
  exact ⟨⟨left.names, right.names⟩, fun g member => (mem_append.mp member).elim (left.guards g) (right.guards g)⟩

theorem guardExpr_scoped (c : Comparison L) : ∀ g ∈ guardExpr offset c, g.test.Scoped (· = .len) := by
  obtain ⟨test, guards⟩ := expandRelop_scoped offsets c
  intro g member
  rcases mem_append.mp member with old | new
  · exact guards g old
  · cases mem_singleton.mp new
    exact test

theorem expandBool_scoped (e : Clause L) : (expandBool offset e).Scoped (· = .len) := by
  induction e with
  | true | false | fail => trivial
  | rel c =>
    obtain ⟨test, guards⟩ := expandRelop_scoped offsets c
    rw [expandBool]
    generalize (expandRelop offset c).2 = gs at guards
    induction gs with
    | nil => exact test
    | cons g gs ih =>
      refine ⟨guards g mem_cons_self, ih fun g member => guards g (mem_cons_of_mem _ member), ?_⟩
      cases g.stop <;> trivial
  | not e ih => exact ⟨ih, trivial, trivial⟩
  | and l r ihl ihr => exact ⟨ihl, ihr, trivial⟩
  | or l r ihl ihr => exact ⟨ihl, trivial, ihr⟩
  | cond test t f ihTest ihT ihF => exact ⟨ihTest, ihT, ihF⟩

end

theorem linkOffset_lenOnly (l : Link) : LenOnly (linkOffset l) := by
  cases l with
  | ether => exact .num 0
  | etherPayload => exact .num etherPayload

theorem guardEtherProtocol_scoped (n : Net) : ∀ g ∈ guardEtherProtocol n, g.test.Scoped (· = .len) := fun g member =>
  (mem_append.mp member).elim (guardExpr_scoped linkOffset_lenOnly _ g) (guardExpr_scoped linkOffset_lenOnly _ g)

theorem netOffset_lenOnly (n : Net) : LenOnly (netOffset n) :=
  ⟨forall_mem_nil _, guardEtherProtocol_scoped n⟩

theorem ipv4PayloadOffset_lenOnly (t : Option IpProto) : LenOnly (ipv4PayloadOffset t) := by
  refine ⟨forall_mem_nil _, fun g member => ?_⟩
  have ofNet := guardExpr_scoped netOffset_lenOnly
  rcases mem_append.mp member with checks | fragment
  · rcases mem_append.mp checks with ip | proto
    · exact guardEtherProtocol_scoped .ip g ip
    · cases t with
      | none => cases proto
      | some t => exact (mem_append.mp proto).elim (ofNet _ g) (ofNet _ g)
  · exact ofNet _ g fragment

theorem expandOffset_lenOnly (l : Level) : LenOnly (expandOffset l) := by
  cases l with
  | link l => exact linkOffset_lenOnly l
  | net n => exact netOffset_lenOnly n
  | ipPayload => exact ipv4PayloadOffset_lenOnly none
  | ip6Payload => exact ⟨forall_mem_nil _, guardEtherProtocol_scoped .ip6⟩
  | proto t => exact ipv4PayloadOffset_lenOnly (some t)

/-- The passes in front of the back end come to a correct program, which keeps the result of the filter. -/
theorem convert_settles {pairs : List Nat → List Nat} (lists : ∀ labels, (pairs labels).Perm labels) {e : Filter}
    (inside : e.Scoped (· = .len)) :
    ∃ anf P, convertAnf e = some anf ∧ Settles (convertSsa pairs · anf) P ∧ P.Correct ∧
      ∀ {α : Type} (M : Meaning α) (ρ : Env α) (o : Outcome), M.Inverts → (∀ x, x ≠ .len → ρ x = none) →
        e.eval M ρ = some o → ∃ n, Runs M P.blocks n ρ P.start o.bool := by
  obtain ⟨anf, n, converted, closed, binders, keeps⟩ := convertAnf_preserves e inside
  have others : ∀ x ∈ anf.binders, x ≠ .len := by
    rw [binders]
    intro x member
    obtain ⟨_, _, rfl⟩ := mem_map.mp member
    exact Name.noConfusion
  have distinct : anf.binders.Nodup := binders ▸ List.Nodup.map (fun _ _ => Name.v.inj) (nodup_range' ..)
  obtain ⟨P, ssa, correct, runs⟩ := convertSsa_settles lists closed distinct fun member => others _ member rfl
  refine ⟨anf, P, converted, ssa, correct, fun M ρ o inverts unbound value => ?_⟩
  exact runs M ρ o inverts (fun x member => unbound x (others x member)) (keeps M ρ o unbound value)

/-- The passes of the compiler keep what an expanded filter means: wherever it has a value, the blocks come to it,
whatever the operators do as long as each comparison has its inverse. -/
theorem convertSsa_preserves {pairs : List Nat → List Nat} (lists : ∀ labels, (pairs labels).Perm labels) {e : Filter}
    (inside : e.Scoped (· = .len)) :
    ∃ anf P, convertAnf e = some anf ∧ Settles (convertSsa pairs · anf) P ∧
      ∀ {α : Type} (M : Meaning α) (ρ : Env α) (o : Outcome), M.Inverts → (∀ x, x ≠ .len → ρ x = none) →
        e.eval M ρ = some o → ∃ n, Runs M P.blocks n ρ P.start o.bool := by
  obtain ⟨anf, P, converted, ssa, _, keeps⟩ := convert_settles lists inside
  exact ⟨anf, P, converted, ssa, keeps⟩

/-- Integers, without a packet to load from. -/
def integers : Meaning Int where
  num := id
  un _ a := a
  bin _ _ _ := none
  load _ _ := none
  rel
    | .lt, a, b => a < b
    | .le, a, b => a ≤ b
    | .eq, a, b => a = b
    | .ne, a, b => a ≠ b
    | .ge, a, b => a ≥ b
    | .gt, a, b => a > b
  call _ _ := false

theorem convertSsa_preserves_long : ∃ anf P, convertAnf (.rel .le (.num 60) (.name .len)) = some anf ∧
    Settles (convertSsa id · anf) P ∧
      ∃ n, Runs integers P.blocks n (fun x => if x = .len then some 64 else none) P.start true := by
  obtain ⟨anf, P, converted, ssa, keeps⟩ := convertSsa_preserves (e := .rel .le (.num 60) (.name .len))
    (fun labels => .refl labels) ⟨forall_mem_nil _, fun x member => mem_singleton.mp member⟩
  have inverts : integers.Inverts := by
    intro op a b
    cases op <;> grind [integers, Relop.inverse]
  exact ⟨anf, P, converted, ssa, keeps integers _ (.value true) inverts (fun x other => if_neg other) rfl⟩

/-- `udp[2:2] = 53` -/
def dns : Clause Level := .rel ⟨.eq, .load (.proto .udp) (.num 2) .two, .num 53⟩

/-- The blocks are in single assignment form: what a block uses and does not bind itself is bound in one that every
path to it goes through. They are all reached, and stand before those they go on to. The parent of a block is the
closest of those that every path to it goes through. -/
structure Program.IsSsa (P : Program) : Prop where
  reached : ∀ l B, P.blocks l = some B → P.Reached l
  forward : ∀ l k, Edge P.blocks.graph l k → orderOf P.order l < orderOf P.order k
  within : ∀ l B, P.blocks l = some B → B.names.Nodup
  across : ∀ l m B C x, P.blocks l = some B → P.blocks m = some C → x ∈ B.names → x ∈ C.names → l = m
  bound : ∀ y m, P.Reached m → Free P.blocks y m →
    y = .len ∨ ∃ a B, a ≠ m ∧ P.Dom a m ∧ P.blocks a = some B ∧ y ∈ B.names
  parent : ∀ k d, P.idom k = some d ↔
    P.Reached k ∧ d ≠ k ∧ P.Dom d k ∧ ∀ a, a ≠ k → P.Dom a k → P.Dom a d

/-- For every filter, in whatever order `pairs` lists the blocks. -/
theorem convertSsa_isSsa {pairs : List Nat → List Nat} (lists : ∀ labels, (pairs labels).Perm labels)
    (e : Clause Level) :
    ∃ anf P, convertAnf (expand e) = some anf ∧ Settles (convertSsa pairs · anf) P ∧ P.IsSsa := by
  obtain ⟨anf, P, converted, ssa, correct, _⟩ := convert_settles lists (expandBool_scoped expandOffset_lenOnly e)
  have reached := correct.trim
  refine ⟨anf, P, converted, ssa, reached, fun l k edge => ?_,
    fun l B here => correct.once.within l B (reached l B here) here,
    fun l m B C x here there => correct.once.across l m B C x (reached l B here) (reached m C there) here there,
    fun y m reach free => correct.bound_above reach free, fun k d => correct.tree.idom_iff correct.numbering⟩
  obtain ⟨B, here, _⟩ := Blocks.edge_iff.mp edge
  exact correct.numbering.edge l k (reached l B here) edge

theorem convertSsa_isSsa_dns : (∀ labels : List Nat, (id labels).Perm labels) ∧
    ∃ anf P, convertAnf (expand dns) = some anf ∧ Settles (convertSsa id · anf) P ∧ P.IsSsa :=
  ⟨fun labels => .refl labels, convertSsa_isSsa (fun labels => .refl labels) dns⟩

end Pf

end MoonGen
