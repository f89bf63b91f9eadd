import MoonGen.Lib.Dominator
import MoonGen.Pf.Fixpoint

namespace MoonGen

open List Option

namespace Pf

open FlowGraph

/-- The blocks in the order in which `order_blocks` goes through them: the second arm of a branch is visited first. -/
def Blocks.backGraph (T : Blocks) : FlowGraph Nat := fun l => (T l).map fun B => B.control.targets.reverse

def orderBlocks (fuel : Nat) (p : Ssa) : Option (List Nat) :=
  (walk p.blocks.backGraph (fun _ chain => chain) List.cons fuel p.start ⟨[], []⟩).map Walk.state

/-- The number a block is given. -/
def orderOf (order : List Nat) (l : Nat) : Nat := order.idxOf l + 1

/-- The blocks before each block, once for each way, as `pairs` comes to them. -/
def addPredecessors (labels : List Nat) (T : Blocks) (k : Nat) : List Nat :=
  labels.flatMap fun l => ((((T l).map fun B => B.control.targets).getD []).filter (· = k)).map fun _ => l

def computeIdoms (fuel : Nat) (start : Nat) (order : List Nat) (preds : Nat → List Nat) : Option (Parents Nat) :=
  dominatorTree start preds (orderOf order) fuel order .empty

def computeDoms (order : List Nat) (idom : Parents Nat) (l : Nat) : List Nat := order.filter fun k => idom k = some l

/-- What the back end reads. -/
structure Program where
  start : Nat
  blocks : Blocks
  order : List Nat
  preds : Nat → List Nat
  idom : Parents Nat
  doms : Nat → List Nat

/-- `pairs` may list the keys of a table in any order. -/
def convertSsa (pairs : List Nat → List Nat) (fuel : Nat) (anf : Inlined) : Option Program :=
  (optimizeSsa fuel (.lower anf)).bind fun p => (orderBlocks fuel p).bind fun order =>
    let preds := addPredecessors (pairs p.labels) p.blocks
    (computeIdoms fuel p.start order preds).map fun idom =>
      ⟨p.start, p.blocks, order, preds, idom, computeDoms order idom⟩

theorem Blocks.edge_backGraph {T : Blocks} {l k : Nat} : Edge T.backGraph l k ↔ Edge T.graph l k := by
  constructor
  · rintro ⟨ks, node, member⟩
    obtain ⟨B, here, rfl⟩ := map_eq_some_iff.mp node
    exact edge_iff.mpr ⟨B, here, mem_reverse.mp member⟩
  · intro edge
    obtain ⟨B, here, member⟩ := edge_iff.mp edge
    exact ⟨_, by rw [backGraph, here, map_some], mem_reverse.mpr member⟩

theorem Blocks.reach_backGraph {T : Blocks} {l k : Nat} : Reach T.backGraph l k ↔ Reach T.graph l k := by
  have same : Edge T.backGraph = Edge T.graph := by
    funext l k
    exact propext edge_backGraph
  rw [Reach, Reach, same]

theorem Blocks.finite_backGraph {T : Blocks} {l : Nat} (finite : Finite T.graph l) : Finite T.backGraph l := by
  induction finite with
  | @mk l ks node next ih =>
    obtain ⟨B, here, rfl⟩ := map_eq_some_iff.mp node
    have back : T.backGraph l = some B.control.targets.reverse := by rw [backGraph, here, map_some]
    refine .mk back fun k member => ?_
    exact ih k (mem_reverse.mp member)

theorem orderBlocks_settles {p : Ssa} (finite : Finite p.blocks.graph p.start) :
    ∃ order, Settles (orderBlocks · p) order ∧ Numbering p.blocks.graph p.start order (orderOf order) := by
  have finite' := Blocks.finite_backGraph finite
  obtain ⟨w, walks⟩ := walk_settles (fun _ chain => chain) List.cons finite' ⟨[], []⟩
  obtain ⟨enough, walked⟩ := id walks
  obtain ⟨_, mem, sorted, edge, inj⟩ := walk_numbering finite' (walked enough (Nat.le_refl _))
  refine ⟨w.state, walks.map _, fun l => (mem l).trans Blocks.reach_backGraph, sorted, fun l k reach forward => ?_, inj⟩
  exact edge l k (Blocks.reach_backGraph.mpr reach) (Blocks.edge_backGraph.mpr forward)

theorem mem_addPredecessors {labels : List Nat} {T : Blocks} {l k : Nat}
    (keys : ∀ l, l ∈ labels ↔ ∃ B, T l = some B) : l ∈ addPredecessors labels T k ↔ Edge T.graph l k := by
  rw [addPredecessors, mem_flatMap, Blocks.edge_iff]
  constructor
  · rintro ⟨m, inLabels, member⟩
    obtain ⟨k', target, rfl⟩ := mem_map.mp member
    obtain ⟨B, here⟩ := (keys m).mp inLabels
    rw [here, map_some, getD_some, mem_filter] at target
    exact ⟨B, here, of_decide_eq_true target.2 ▸ target.1⟩
  · rintro ⟨B, here, member⟩
    refine ⟨l, (keys l).mpr ⟨B, here⟩, mem_map.mpr ⟨k, ?_, rfl⟩⟩
    rw [here, map_some, getD_some, mem_filter]
    exact ⟨member, decide_eq_true rfl⟩

/-- The block can be come to from the start. -/
abbrev Program.Reached (P : Program) (l : Nat) : Prop := Reach P.blocks.graph P.start l

/-- Every path from the start to the second block goes through the first. -/
abbrev Program.Dom (P : Program) (a l : Nat) : Prop := Dominates P.blocks.graph P.start a l

/-- What the passes on the blocks come to: the blocks are in single assignment form and all reached, a block stands
in the order before those it goes on to, and the ancestors of a block are what every path to it goes through. -/
structure Program.Correct (P : Program) : Prop where
  closed : Sealed P.blocks (· = .len) P.start
  once : BindOnce P.blocks P.Reached
  others : ∀ l B, P.Reached l → P.blocks l = some B → .len ∉ B.names
  trim : ∀ l B, P.blocks l = some B → P.Reached l
  numbering : Numbering P.blocks.graph P.start P.order (orderOf P.order)
  preds : ∀ l k, l ∈ P.preds k ↔ Edge P.blocks.graph l k
  tree : Dominating P.blocks.graph P.start P.order (orderOf P.order) P.idom
  doms : ∀ l, P.doms l = P.order.filter fun k => P.idom k = some l

theorem computeIdoms_settles {labels order : List Nat} {p : Ssa} (trim : p.Trim)
    (keys : ∀ l, l ∈ labels ↔ ∃ B, p.blocks l = some B)
    (numbering : Numbering p.blocks.graph p.start order (orderOf order)) :
    ∃ idom, Settles (computeIdoms · p.start order (addPredecessors labels p.blocks)) idom ∧
      Dominating p.blocks.graph p.start order (orderOf order) idom := by
  refine dominatorTree_correct numbering (fun l k _ => ?_) (nil_append order).symm ⟨⟨?_, ?_⟩, ?_⟩
  · rw [mem_addPredecessors keys]
    refine ⟨fun edge => ⟨?_, edge⟩, And.right⟩
    obtain ⟨B, here, _⟩ := Blocks.edge_iff.mp edge
    exact trim k B here
  · exact forall_mem_nil _
  · intro l d parent
    cases parent
  · exact forall_mem_nil _

/-- The passes end with enough fuel, in a program that is correct as such and comes to the result of the
expression, in whatever order `pairs` lists the blocks. -/
theorem convertSsa_settles {pairs : List Nat → List Nat} (lists : ∀ labels, (pairs labels).Perm labels) {anf : Inlined}
    (inside : anf.Scoped (· = .len)) (distinct : anf.binders.Nodup) (others : .len ∉ anf.binders) :
    ∃ P, Settles (convertSsa pairs · anf) P ∧ P.Correct ∧
      ∀ {α : Type} (M : Meaning α) (ρ : Env α) (o : Outcome), M.Inverts → (∀ x ∈ anf.binders, ρ x = none) →
        anf.eval M ρ = some o → ∃ n, Runs M P.blocks n ρ P.start o.bool := by
  obtain ⟨p, optimized, wf, trim, keys, keeps⟩ := optimizeSsa_settles (Ssa.lower_wellFormed inside distinct others)
  obtain ⟨order, ordered, numbering⟩ := orderBlocks_settles wf.closed.finite
  have keys : ∀ l, l ∈ pairs p.labels ↔ ∃ B, p.blocks l = some B := fun l => (lists p.labels).mem_iff.trans (keys l)
  obtain ⟨idom, computed, tree⟩ := computeIdoms_settles trim keys numbering
  refine ⟨⟨p.start, p.blocks, order, addPredecessors (pairs p.labels) p.blocks, idom, computeDoms order idom⟩, ?_, ?_, ?_⟩
  · unfold convertSsa
    exact optimized.bind (ordered.bind (computed.map _))
  · exact ⟨wf.closed, wf.once, wf.others, trim, numbering, fun l k => mem_addPredecessors keys, tree, fun l => rfl⟩
  · intro α M ρ o inverts unbound known
    exact keeps M ρ o.bool inverts (Ssa.lower_runs distinct unbound known)

end Pf

end MoonGen
