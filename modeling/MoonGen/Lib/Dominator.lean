import Mathlib.Data.List.Basic
import MoonGen.Lib.DepthFirst
import MoonGen.Lib.Environment

universe u

namespace FlowGraph

open List

variable {ν : Type u} {G : FlowGraph ν} {start a l k : ν}

/-- There is a path from the start to the node that does not go through `a`. -/
inductive Avoids (G : FlowGraph ν) (start a : ν) : ν → Prop
  | start (other : start ≠ a) : Avoids G start a start
  | step {p l : ν} (before : Avoids G start a p) (edge : Edge G p l) (other : l ≠ a) : Avoids G start a l

/-- Every path from the start to the node goes through `a`. -/
def Dominates (G : FlowGraph ν) (start a l : ν) : Prop := ¬Avoids G start a l

theorem Avoids.reach (avoids : Avoids G start a l) : Reach G start l := by
  induction avoids with
  | start => exact .refl
  | step _ edge _ ih => exact ih.tail edge

theorem Avoids.ne (avoids : Avoids G start a l) : l ≠ a := by
  cases avoids with
  | start other => exact other
  | step _ _ other => exact other

theorem dominates_iff : Dominates G start a l ↔
    a = l ∨ l ≠ start ∧ ∀ p, Reach G start p → Edge G p l → Dominates G start a p := by
  constructor
  · intro dominates
    by_cases same : a = l
    · exact .inl same
    · refine .inr ⟨fun first => ?_, fun p _ edge avoids => dominates (.step avoids edge (Ne.symm same))⟩
      subst first
      exact dominates (.start (Ne.symm same))
  · rintro (rfl | ⟨other, all⟩) avoids
    · exact avoids.ne rfl
    · cases avoids with
      | start => exact other rfl
      | step before edge _ => exact all _ before.reach edge before

theorem Dominates.reach (dominates : Dominates G start a l) (reach : Reach G start l) : Reach G a l := by
  induction reach with
  | refl =>
    rcases dominates_iff.mp dominates with rfl | ⟨other, _⟩
    · exact .refl
    · exact absurd rfl other
  | tail before edge ih =>
    rcases dominates_iff.mp dominates with rfl | ⟨_, all⟩
    · exact .refl
    · exact (ih (all _ before edge)).tail edge

/-- The nodes in an order in which edges go forward, with their places. -/
structure Numbering (G : FlowGraph ν) (start : ν) (order : List ν) (pos : ν → Nat) : Prop where
  mem : ∀ l, l ∈ order ↔ Reach G start l
  sorted : order.Pairwise fun l k => pos l < pos k
  edge : ∀ l k, Reach G start l → Edge G l k → pos l < pos k
  inj : ∀ l k, l ∈ order → k ∈ order → pos l = pos k → l = k

section
variable {order : List ν} {pos : ν → Nat}

theorem Numbering.le_of_reach (numbering : Numbering G start order pos) (first : Reach G start l) (reach : Reach G l k) :
    pos l ≤ pos k := by
  induction reach with
  | refl => exact Nat.le_refl _
  | tail before edge ih => exact Nat.le_trans ih (Nat.le_of_lt (numbering.edge _ _ (first.trans before) edge))

/-- The nodes with a lower place have been before. -/
theorem Numbering.mem_before (numbering : Numbering G start order pos) {done rest : List ν}
    (split : order = done ++ l :: rest) (member : k ∈ order) (below : pos k < pos l) : k ∈ done := by
  have sorted := numbering.sorted
  rw [split] at sorted member
  rcases mem_append.mp member with before | after
  · exact before
  · have later := (pairwise_append.mp sorted).2.1
    rcases mem_cons.mp after with rfl | behind
    · exact absurd below (Nat.lt_irrefl _)
    · exact absurd ((pairwise_cons.mp later).1 k behind) (Nat.lt_asymm below)

end

section Places
variable [DecidableEq ν] {xs : List ν}

theorem idxOf_lt_of_topological (sorted : Topological G xs) (distinct : xs.Nodup) (member : l ∈ xs) (edge : Edge G l k) :
    xs.idxOf l < xs.idxOf k ∧ k ∈ xs := by
  induction xs with
  | nil => cases member
  | cons x rest ih =>
    obtain ⟨⟨ks, node, next⟩, later⟩ := sorted
    obtain ⟨outside, distinct⟩ := nodup_cons.mp distinct
    have behind : ∀ m ∈ rest, x ≠ m := fun m inRest same => outside (same ▸ inRest)
    by_cases same : x = l
    · subst same
      obtain ⟨ks', node', target⟩ := edge
      rw [node] at node'
      cases node'
      have inRest := next k target
      rw [idxOf_cons_self, idxOf_cons_ne _ (behind k inRest)]
      exact ⟨Nat.succ_pos _, mem_cons_of_mem x inRest⟩
    · obtain ⟨less, inRest⟩ := ih later distinct ((mem_cons.mp member).resolve_left (Ne.symm same))
      rw [idxOf_cons_ne _ same, idxOf_cons_ne _ (behind k inRest)]
      exact ⟨Nat.succ_lt_succ less, mem_cons_of_mem x inRest⟩

theorem pairwise_idxOf (distinct : xs.Nodup) : xs.Pairwise fun l k => xs.idxOf l < xs.idxOf k := by
  induction xs with
  | nil => exact .nil
  | cons x rest ih =>
    obtain ⟨outside, distinct⟩ := nodup_cons.mp distinct
    have behind : ∀ m ∈ rest, x ≠ m := fun m inRest same => outside (same ▸ inRest)
    refine .cons (fun m inRest => ?_) ((ih distinct).imp_of_mem fun first second less => ?_)
    · rw [idxOf_cons_self, idxOf_cons_ne _ (behind m inRest)]
      exact Nat.succ_pos _
    · rw [idxOf_cons_ne _ (behind _ first), idxOf_cons_ne _ (behind _ second)]
      exact Nat.succ_lt_succ less

theorem numbering_of_topological (sorted : Topological G xs) (distinct : xs.Nodup)
    (mem : ∀ l, l ∈ xs ↔ Reach G start l) : Numbering G start xs fun l => xs.idxOf l + 1 where
  mem := mem
  sorted := (pairwise_idxOf distinct).imp fun less => Nat.succ_lt_succ less
  edge := fun l _ reach edge => Nat.succ_lt_succ (idxOf_lt_of_topological sorted distinct ((mem l).mpr reach) edge).1
  inj := fun _ _ first _ same => (idxOf_inj first).mp (Nat.succ.inj same)

/-- What a walk is done with, the last first. -/
theorem walk_numbering {fuel : Nat} {w : Walk ν (List ν)} (finite : Finite G start)
    (done : walk G (fun _ chain => chain) List.cons fuel start ⟨[], []⟩ = some w) :
    w.state.Nodup ∧ Numbering G start w.state fun l => w.state.idxOf l + 1 := by
  have rule : Rule G (fun _ chain => chain) List.cons fun _ new chain chain' =>
      ∃ front, front.Perm new ∧ chain' = front ++ chain := by
    refine ⟨fun _ => ⟨[], .nil, rfl⟩, ?_, fun _ _ => ⟨[], .nil, rfl⟩, ?_⟩
    · rintro ls ls' new new' s s' s'' ⟨front, perm, rfl⟩ ⟨front', perm', rfl⟩
      exact ⟨front' ++ front, perm'.append perm, (append_assoc ..).symm⟩
    · rintro l ks new s s' _ ⟨front, perm, rfl⟩
      exact ⟨l :: front, (perm.cons l).trans (show ([l] ++ new).Perm (new ++ [l]) from perm_append_comm), rfl⟩
  obtain ⟨distinct, met, front, perm, eq⟩ := walk_met rule done
  rw [append_nil] at eq
  rw [eq]
  have onWay : ∀ m ∈ ([] : List ν), Relation.TransGen (Edge G) m start := forall_mem_nil _
  obtain ⟨sorted, _⟩ := walk_topological done finite onWay (forall_mem_nil _) trivial
  refine ⟨perm.nodup_iff.mpr distinct, numbering_of_topological (eq ▸ sorted) (perm.nodup_iff.mpr distinct) fun l => ?_⟩
  rw [perm.mem_iff, met]

end Places

abbrev Parents (ν : Type u) := Environment ν ν

/-- The second is above the first or the first itself. -/
def Ancestor (idom : Parents ν) : ν → ν → Prop := Relation.ReflTransGen fun l d => idom l = some d

theorem ancestor_iff {idom : Parents ν} {l d a : ν} (parent : idom l = some d) :
    Ancestor idom l a ↔ a = l ∨ Ancestor idom d a := by
  constructor
  · intro ancestor
    rcases Relation.ReflTransGen.cases_head ancestor with same | ⟨d', parent', above⟩
    · exact .inl same.symm
    · rw [parent] at parent'
      cases parent'
      exact .inr above
  · rintro (rfl | above)
    · exact .refl
    · exact .head parent above

section Tree
variable [DecidableEq ν]

/-- From two nodes up to where they meet: the one with the higher place goes first. -/
def meet (idom : Parents ν) (pos : ν → Nat) : Nat → ν → ν → Option ν
  | 0, _, _ => none
  | fuel + 1, d₁, d₂ =>
    if d₁ = d₂ then some d₁
    else if pos d₁ < pos d₂ then (idom d₂).bind fun d => meet idom pos fuel d₁ d
    else (idom d₁).bind fun d => meet idom pos fuel d d₂

/-- The parents of the nodes that have been numbered so far. -/
structure Forest (start : ν) (done : List ν) (pos : ν → Nat) (idom : Parents ν) : Prop where
  root : ∀ l ∈ done, l ≠ start → ∃ d, idom l = some d
  within : ∀ l d, idom l = some d → l ∈ done ∧ d ∈ done ∧ pos d < pos l

variable {pos : ν → Nat} {idom : Parents ν} {done : List ν}

omit [DecidableEq ν] in
theorem Forest.le_of_ancestor (forest : Forest start done pos idom) (ancestor : Ancestor idom l a) : pos a ≤ pos l := by
  induction ancestor with
  | refl => exact Nat.le_refl _
  | tail _ parent ih => exact Nat.le_trans (Nat.le_of_lt (forest.within _ _ parent).2.2) ih

theorem Forest.meet (forest : Forest start done pos idom) (least : ∀ l ∈ done, pos start ≤ pos l)
    (inj : ∀ l ∈ done, ∀ k ∈ done, pos l = pos k → l = k) {d₁ d₂ : ν} (first : d₁ ∈ done) (second : d₂ ∈ done) :
    ∃ c ∈ done, Settles (meet idom pos · d₁ d₂) c ∧ pos c ≤ pos d₁ ∧
      ∀ a, Ancestor idom c a ↔ Ancestor idom d₁ a ∧ Ancestor idom d₂ a := by
  induction places : pos d₁ + pos d₂ using Nat.strongRecOn generalizing d₁ d₂ with
  | ind n ih =>
    by_cases same : d₁ = d₂
    · subst same
      refine ⟨d₁, first, .of_succ (fun _ => ?_) (.of_eq fun _ => rfl), Nat.le_refl _, fun a => (and_self_iff).symm⟩
      rw [FlowGraph.meet, if_pos rfl]
    by_cases below : pos d₁ < pos d₂
    · have notStart : d₂ ≠ start := by
        rintro rfl
        exact absurd below (Nat.not_lt.mpr (least d₁ first))
      obtain ⟨d, parent⟩ := forest.root d₂ second notStart
      obtain ⟨_, inDone, higher⟩ := forest.within d₂ d parent
      obtain ⟨c, member, found, bound, common⟩ := ih (pos d₁ + pos d) (by omega) first inDone rfl
      refine ⟨c, member, .of_succ (fun _ => ?_) found, bound, fun a => (common a).trans ?_⟩
      · rw [FlowGraph.meet, if_neg same, if_pos below, parent, Option.bind_some]
      · refine and_congr_right fun above => ((ancestor_iff parent).trans (or_iff_right ?_)).symm
        rintro rfl
        exact absurd (forest.le_of_ancestor above) (Nat.not_le.mpr below)
    · have strict : pos d₂ < pos d₁ := by
        rcases Nat.lt_or_ge (pos d₂) (pos d₁) with less | more
        · exact less
        · exact absurd (inj d₁ first d₂ second (by omega)) same
      have notStart : d₁ ≠ start := by
        rintro rfl
        exact absurd strict (Nat.not_lt.mpr (least d₂ second))
      obtain ⟨d, parent⟩ := forest.root d₁ first notStart
      obtain ⟨_, inDone, higher⟩ := forest.within d₁ d parent
      obtain ⟨c, member, found, bound, common⟩ := ih (pos d + pos d₂) (by omega) inDone second rfl
      refine ⟨c, member, .of_succ (fun _ => ?_) found, by omega, fun a => (common a).trans ?_⟩
      · rw [FlowGraph.meet, if_neg same, if_neg below, parent, Option.bind_some]
      · refine and_congr_left fun above => ((ancestor_iff parent).trans (or_iff_right ?_)).symm
        rintro rfl
        exact absurd (forest.le_of_ancestor above) (Nat.not_le.mpr strict)

/-- Where a node and several others meet. -/
def meetAll (idom : Parents ν) (pos : ν → Nat) (fuel : Nat) : ν → List ν → Option ν
  | d, [] => some d
  | d, p :: ps => (meet idom pos fuel d p).bind fun d => meetAll idom pos fuel d ps

theorem Forest.meetAll (forest : Forest start done pos idom) (least : ∀ l ∈ done, pos start ≤ pos l)
    (inj : ∀ l ∈ done, ∀ k ∈ done, pos l = pos k → l = k) {d : ν} {ps : List ν} (first : d ∈ done)
    (others : ∀ p ∈ ps, p ∈ done) :
    ∃ c ∈ done, Settles (meetAll idom pos · d ps) c ∧ pos c ≤ pos d ∧
      ∀ a, Ancestor idom c a ↔ ∀ p ∈ d :: ps, Ancestor idom p a := by
  induction ps generalizing d with
  | nil =>
    refine ⟨d, first, .of_eq fun _ => rfl, Nat.le_refl _, fun a => ?_⟩
    rw [forall_mem_singleton]
  | cons p ps ih =>
    obtain ⟨rest, more⟩ := forall_mem_cons.mp others
    obtain ⟨c, member, found, bound, common⟩ := forest.meet least inj first rest
    obtain ⟨e, member', found', bound', common'⟩ := ih member more
    refine ⟨e, member', found.bind found', Nat.le_trans bound' bound, fun a => ?_⟩
    rw [common' a, forall_mem_cons, forall_mem_cons, forall_mem_cons, common a, and_assoc]

/-- In the order, each node goes under the place where those before it meet. Only the start has none before it. -/
def dominatorTree (start : ν) (preds : ν → List ν) (pos : ν → Nat) (fuel : Nat) : List ν → Parents ν → Option (Parents ν)
  | [], idom => some idom
  | l :: rest, idom =>
    match preds l with
    | [] => if l = start then dominatorTree start preds pos fuel rest idom else none
    | p :: ps => (meetAll idom pos fuel p ps).bind fun d => dominatorTree start preds pos fuel rest (idom.bind l d)

omit [DecidableEq ν] in
theorem Forest.ancestor_congr {idom' : Parents ν} (forest : Forest start done pos idom)
    (same : ∀ m ∈ done, idom' m = idom m) (member : l ∈ done) : Ancestor idom' l a ↔ Ancestor idom l a := by
  constructor
  · intro ancestor
    have both : Ancestor idom l a ∧ a ∈ done := by
      induction ancestor with
      | refl => exact ⟨.refl, member⟩
      | tail _ parent ih =>
        rw [same _ ih.2] at parent
        exact ⟨ih.1.tail parent, (forest.within _ _ parent).2.1⟩
    exact both.1
  · intro ancestor
    have both : Ancestor idom' l a ∧ a ∈ done := by
      induction ancestor with
      | refl => exact ⟨.refl, member⟩
      | tail _ parent ih => exact ⟨ih.1.tail ((same _ ih.2).trans parent), (forest.within _ _ parent).2.1⟩
    exact both.1

theorem Forest.add (forest : Forest start done pos idom) {d : ν} (above : d ∈ done) (higher : pos d < pos l)
    (unseen : l ∉ done) : Forest start (done ++ [l]) pos (idom.bind l d) where
  root := by
    intro m member other
    by_cases same : m = l
    · exact ⟨d, by rw [same, Environment.bind_self]⟩
    · rw [Environment.bind_of_ne same]
      exact forest.root m ((mem_append.mp member).resolve_right fun last => same (mem_singleton.mp last)) other
  within := by
    intro m e parent
    rcases Environment.bind_cases parent with ⟨rfl, rfl⟩ | ⟨_, before⟩
    · exact ⟨mem_append_right done (mem_singleton_self m), mem_append_left _ above, higher⟩
    · obtain ⟨inDone, inDone', less⟩ := forest.within m e before
      exact ⟨mem_append_left _ inDone, mem_append_left _ inDone', less⟩

variable {order : List ν} {preds : ν → List ν}

/-- The tree of the dominators so far. -/
structure Dominating (G : FlowGraph ν) (start : ν) (done : List ν) (pos : ν → Nat) (idom : Parents ν) : Prop extends
    Forest start done pos idom where
  dominates : ∀ l ∈ done, ∀ a, Ancestor idom l a ↔ Dominates G start a l

omit [DecidableEq ν] in
theorem Dominating.first (dominating : Dominating G start done pos idom) (unseen : start ∉ done) :
    Dominating G start (done ++ [start]) pos idom where
  root := fun l member other => dominating.root l
    ((mem_append.mp member).resolve_right fun last => other (mem_singleton.mp last)) other
  within := by
    intro l d parent
    obtain ⟨inDone, inDone', less⟩ := dominating.within l d parent
    exact ⟨mem_append_left _ inDone, mem_append_left _ inDone', less⟩
  dominates := by
    intro l member a
    rcases mem_append.mp member with before | last
    · exact dominating.dominates l before a
    · rw [mem_singleton.mp last, dominates_iff]
      constructor
      · intro ancestor
        rcases Relation.ReflTransGen.cases_head ancestor with same | ⟨d, parent, _⟩
        · exact .inl same.symm
        · exact absurd (dominating.within _ _ parent).1 unseen
      · rintro (rfl | ⟨other, _⟩)
        · exact .refl
        · exact absurd rfl other

theorem Dominating.next (dominating : Dominating G start done pos idom) (unseen : l ∉ done) (other : l ≠ start)
    (before : ∀ p, p ∈ preds l ↔ Reach G start p ∧ Edge G p l) (inDone : ∀ p ∈ preds l, p ∈ done) {d : ν}
    (above : d ∈ done) (higher : pos d < pos l)
    (common : ∀ a, Ancestor idom d a ↔ ∀ p ∈ preds l, Ancestor idom p a) :
    Dominating G start (done ++ [l]) pos (idom.bind l d) where
  toForest := dominating.toForest.add above higher unseen
  dominates := by
    have same : ∀ m ∈ done, (idom.bind l d) m = idom m := fun m member =>
      Environment.bind_of_ne fun eq => unseen (eq ▸ member)
    intro m member a
    rcases mem_append.mp member with old | last
    · rw [dominating.toForest.ancestor_congr same old]
      exact dominating.dominates m old a
    · rw [mem_singleton.mp last, ancestor_iff Environment.bind_self, dominates_iff,
        dominating.toForest.ancestor_congr same above, common a]
      refine or_congr_right ⟨fun all => ⟨other, fun p reach edge => ?_⟩, fun ⟨_, all⟩ p member => ?_⟩
      · have inPreds := (before p).mpr ⟨reach, edge⟩
        exact (dominating.dominates p (inDone p inPreds) a).mp (all p inPreds)
      · obtain ⟨reach, edge⟩ := (before p).mp member
        exact (dominating.dominates p (inDone p member) a).mpr (all p reach edge)

/-- The ancestors of a node in the tree are what dominates it. -/
theorem dominatorTree_correct (numbering : Numbering G start order pos)
    (before : ∀ l p, Reach G start l → (p ∈ preds l ↔ Reach G start p ∧ Edge G p l))
    {done rest : List ν} (split : order = done ++ rest) (dominating : Dominating G start done pos idom) :
    ∃ idom', Settles (dominatorTree start preds pos · rest idom) idom' ∧ Dominating G start order pos idom' := by
  induction rest generalizing done idom with
  | nil =>
    rw [append_nil] at split
    exact ⟨idom, .of_eq fun _ => rfl, split ▸ dominating⟩
  | cons l rest ih =>
    have here : l ∈ order := split ▸ mem_append_right done mem_cons_self
    have subset : ∀ m ∈ done, m ∈ order := fun m member => split ▸ mem_append_left _ member
    have reach := (numbering.mem l).mp here
    have split' : order = (done ++ [l]) ++ rest := by rw [append_assoc, singleton_append, split]
    have unseen : l ∉ done := by
      intro seen
      have sorted := numbering.sorted
      rw [split] at sorted
      exact Nat.lt_irrefl _ ((pairwise_append.mp sorted).2.2 l seen l mem_cons_self)
    have least : ∀ m ∈ done, pos start ≤ pos m := fun m member =>
      numbering.le_of_reach .refl ((numbering.mem m).mp (subset m member))
    have inj : ∀ m ∈ done, ∀ k ∈ done, pos m = pos k → m = k := fun m first k second =>
      numbering.inj m k (subset m first) (subset k second)
    cases list : preds l with
    | nil =>
      have isStart : l = start := by
        rcases Relation.ReflTransGen.cases_tail reach with same | ⟨p, reach', edge⟩
        · exact same
        · have member := (before l p reach).mpr ⟨reach', edge⟩
          rw [list] at member
          cases member
      subst isStart
      obtain ⟨idom', rest, tree⟩ := ih split' (dominating.first unseen)
      simp only [dominatorTree, list, if_true]
      exact ⟨idom', rest, tree⟩
    | cons p ps =>
      have inDone : ∀ q ∈ preds l, q ∈ done := by
        intro q member
        obtain ⟨reach', edge⟩ := (before l q reach).mp member
        exact numbering.mem_before split ((numbering.mem q).mpr reach') (numbering.edge q l reach' edge)
      obtain ⟨first, others⟩ := forall_mem_cons.mp (list ▸ inDone)
      obtain ⟨d, above, found, bound, common⟩ := dominating.toForest.meetAll least inj first others
      obtain ⟨reach', edge⟩ := (before l p reach).mp (list ▸ mem_cons_self)
      have other : l ≠ start := by
        rintro rfl
        exact absurd (numbering.edge p l reach' edge) (Nat.not_lt.mpr (least p first))
      obtain ⟨idom', rest, tree⟩ := ih split' (dominating.next unseen other (fun q => before l q reach) inDone above
        (Nat.lt_of_le_of_lt bound (numbering.edge p l reach' edge)) (list ▸ common))
      simp only [dominatorTree, list]
      exact ⟨idom', found.bind rest, tree⟩

section Complete
variable (numbering : Numbering G start order pos) (tree : Dominating G start order pos idom)

omit [DecidableEq ν]

include tree in
theorem Dominating.parent (parent : idom l = some a) : Dominates G start a l :=
  (tree.dominates l (tree.within l a parent).1 a).mp (Relation.ReflTransGen.single parent)

include numbering tree

theorem Dominating.antisymm (first : Ancestor idom l a) (second : Ancestor idom a l) (member : l ∈ order)
    (member' : a ∈ order) : l = a :=
  numbering.inj l a member member' (Nat.le_antisymm (tree.le_of_ancestor second) (tree.le_of_ancestor first))

/-- The parent of a node is the closest of those that dominate it. -/
theorem Dominating.idom_iff {d : ν} : idom k = some d ↔
    Reach G start k ∧ d ≠ k ∧ Dominates G start d k ∧ ∀ a, a ≠ k → Dominates G start a k → Dominates G start a d := by
  constructor
  · intro parent
    obtain ⟨inOrder, inOrder', less⟩ := tree.within k d parent
    refine ⟨(numbering.mem k).mp inOrder, ?_, tree.parent parent, fun a other dominates => ?_⟩
    · rintro rfl
      exact Nat.lt_irrefl _ less
    · have ancestor := (ancestor_iff parent).mp ((tree.dominates k inOrder a).mpr dominates)
      exact (tree.dominates d inOrder' a).mp (ancestor.resolve_left other)
  · rintro ⟨reach, other, dominates, closest⟩
    have inOrder := (numbering.mem k).mpr reach
    rcases Relation.ReflTransGen.cases_head ((tree.dominates k inOrder d).mpr dominates) with same | ⟨d', parent, above⟩
    · exact absurd same.symm other
    · obtain ⟨_, inOrder', less⟩ := tree.within k d' parent
      have other' : d' ≠ k := fun same => Nat.lt_irrefl _ (same ▸ less)
      have member : d ∈ order := by
        rcases Relation.ReflTransGen.cases_tail above with same | ⟨_, _, last⟩
        · exact same ▸ inOrder'
        · exact (tree.within _ d last).2.1
      have back := (tree.dominates d member d').mpr (closest d' other' (tree.parent parent))
      rw [parent, tree.antisymm numbering above back inOrder' member]

end Complete

end Tree

end FlowGraph
