import Mathlib.Logic.Relation
import Mathlib.Algebra.GroupWithZero.Nat
import Mathlib.Data.List.Perm.Basic

universe u v w

/-- With enough fuel the function comes to the result. -/
def Settles {β : Type v} (f : Nat → Option β) (r : β) : Prop := ∃ enough, ∀ fuel, enough ≤ fuel → f fuel = some r

namespace Settles

variable {β : Type v} {γ : Type w} {f : Nat → Option β} {b : β}

theorem of_eq (all : ∀ fuel, f fuel = some b) : Settles f b := ⟨0, fun fuel _ => all fuel⟩

theorem of_succ {g : Nat → Option β} (step : ∀ fuel, g (fuel + 1) = f fuel) (first : Settles f b) : Settles g b := by
  obtain ⟨enough, done⟩ := first
  refine ⟨enough + 1, fun fuel more => ?_⟩
  obtain ⟨rest, rfl⟩ : ∃ rest, fuel = rest + 1 := ⟨fuel - 1, by omega⟩
  rw [step, done rest (by omega)]

theorem bind {g : β → Nat → Option γ} {c : γ} (first : Settles f b) (second : Settles (g b) c) :
    Settles (fun fuel => (f fuel).bind fun b => g b fuel) c := by
  obtain ⟨enough, done⟩ := first
  obtain ⟨enough', done'⟩ := second
  refine ⟨max enough enough', fun fuel more => ?_⟩
  simp only [done fuel (by omega), Option.bind_some, done' fuel (by omega)]

theorem map (first : Settles f b) (g : β → γ) : Settles (fun fuel => (f fuel).map g) (g b) := by
  obtain ⟨enough, done⟩ := first
  exact ⟨enough, fun fuel more => by simp only [done fuel more, Option.map_some]⟩

end Settles

/-- A graph by the successors of its nodes. What has no list of successors is no node. -/
abbrev FlowGraph (ν : Type u) := ν → Option (List ν)

namespace FlowGraph

open List Option

variable {ν : Type u} {σ : Type v} {G : FlowGraph ν}

def Edge (G : FlowGraph ν) (l k : ν) : Prop := ∃ ks, G l = some ks ∧ k ∈ ks

def Reach (G : FlowGraph ν) : ν → ν → Prop := Relation.ReflTransGen (Edge G)

/-- Every path from the node ends, and has nodes only. -/
inductive Finite (G : FlowGraph ν) : ν → Prop
  | mk {l : ν} {ks : List ν} (node : G l = some ks) (next : ∀ k ∈ ks, Finite G k) : Finite G l

variable {l : ν}

theorem Finite.of_edge {k : ν} (finite : Finite G l) (edge : Edge G l k) : Finite G k := by
  obtain ⟨node, next⟩ := finite
  obtain ⟨ks, here, member⟩ := edge
  rw [node] at here
  cases here
  exact next k member

theorem Finite.of_reach {k : ν} (finite : Finite G l) (reach : Reach G l k) : Finite G k := by
  induction reach with
  | refl => exact finite
  | tail _ edge ih => exact ih.of_edge edge

/-- No node comes back to itself. -/
theorem Finite.acyclic (finite : Finite G l) : ¬Relation.TransGen (Edge G) l l := by
  induction finite with
  | @mk l ks node next ih =>
    intro cycle
    obtain ⟨k, ⟨ks', here, member⟩, back⟩ := (Relation.TransGen.head'_iff).mp cycle
    rw [node] at here
    cases here
    exact ih k member (Relation.TransGen.tail' back ⟨ks, node, member⟩)

/-- The values of the nodes, each made of those of its successors. -/
inductive Valued {α : Type v} (G : FlowGraph ν) (value : ν → (ν → α) → α) : ν → α → Prop
  | mk {l : ν} {ks : List ν} (f : ν → α) (node : G l = some ks) (next : ∀ k ∈ ks, Valued G value k (f k)) :
      Valued G value l (value l f)

theorem exists_values {α : Type v} [Nonempty α] (value : ν → (ν → α) → α)
    (only : ∀ l ks f g, G l = some ks → (∀ k ∈ ks, f k = g k) → value l f = value l g) :
    ∃ val : ν → α, ∀ l, Finite G l → val l = value l val := by
  have unique : ∀ {l a b}, Valued G value l a → Valued G value l b → a = b := by
    intro l a b first second
    induction first generalizing b with
    | mk f node _ ih =>
      obtain ⟨g, node', next⟩ := second
      rw [node] at node'
      cases node'
      exact only _ _ f g node fun k member => ih k member (next k member)
  have total : ∀ {l}, Finite G l → ∃ a, Valued G value l a := by
    intro l finite
    induction finite with
    | mk node _ ih =>
      choose! f next using ih
      exact ⟨_, .mk f node next⟩
  refine ⟨fun l => Classical.epsilon (Valued G value l), fun l finite => ?_⟩
  obtain ⟨node, next⟩ := id finite
  exact unique (Classical.epsilon_spec (total finite))
    (.mk _ node fun k member => Classical.epsilon_spec (total (next k member)))

/-- The nodes met so far and what has been made of them. -/
structure Walk (ν : Type u) (σ : Type v) where
  visited : List ν
  state : σ

def each {β : Type v} (f : ν → β → Option β) : List ν → β → Option β
  | [], s => some s
  | k :: ks, s => (f k s).bind (each f ks)

theorem each_settles {β : Type v} {f : Nat → ν → β → Option β} {ks : List ν}
    (all : ∀ k ∈ ks, ∀ s, ∃ s', Settles (f · k s) s') (s : β) : ∃ s', Settles (fun fuel => each (f fuel) ks s) s' := by
  induction ks generalizing s with
  | nil => exact ⟨s, .of_eq fun _ => rfl⟩
  | cons k ks ih =>
    obtain ⟨s₁, first⟩ := all k mem_cons_self s
    obtain ⟨s₂, rest⟩ := ih (fun k member => all k (mem_cons_of_mem _ member)) s₁
    exact ⟨s₂, first.bind rest⟩

/-- Depth first: `arrive` whenever a node is come to, `finish` when all behind it has been visited. -/
def walk [DecidableEq ν] (G : FlowGraph ν) (arrive finish : ν → σ → σ) : Nat → ν → Walk ν σ → Option (Walk ν σ)
  | 0, _, _ => none
  | fuel + 1, l, w => (G l).bind fun ks =>
    if l ∈ w.visited then some ⟨w.visited, arrive l w.state⟩
    else (each (walk G arrive finish fuel) ks ⟨l :: w.visited, arrive l w.state⟩).map fun w =>
      ⟨w.visited, finish l w.state⟩

/-- What a walk from `ls` does to the nodes met: `new` are met for the first time. -/
structure Walked (G : FlowGraph ν) (ls new visited visited' : List ν) : Prop where
  visited_eq : visited' = new ++ visited
  distinct : new.Nodup
  fresh : ∀ m ∈ new, m ∉ visited
  reached : ∀ m ∈ new, ∃ l ∈ ls, Reach G l m
  roots : ∀ l ∈ ls, l ∈ visited'
  closed : ∀ m ∈ new, ∃ ks, G m = some ks ∧ ∀ k ∈ ks, k ∈ visited'

theorem Walked.nil (visited : List ν) : Walked G [] [] visited visited := by
  refine ⟨rfl, nodup_nil, ?_, ?_, ?_, ?_⟩ <;> intro m member <;> cases member

variable {visited : List ν}

theorem Walked.seen (seen : l ∈ visited) : Walked G [l] [] visited visited :=
  { nil visited with
    reached := forall_mem_nil _
    roots := fun _ member => mem_singleton.mp member ▸ seen }

variable {new visited' : List ν}

theorem Walked.append {ls ls' new' visited'' : List ν}
    (first : Walked G ls new visited visited') (rest : Walked G ls' new' visited' visited'') :
    Walked G (ls ++ ls') (new' ++ new) visited visited'' := by
  obtain ⟨eq₁, distinct₁, fresh₁, reached₁, roots₁, closed₁⟩ := first
  obtain ⟨eq₂, distinct₂, fresh₂, reached₂, roots₂, closed₂⟩ := rest
  have grows : ∀ m ∈ visited', m ∈ visited'' := fun m member => eq₂ ▸ mem_append_right new' member
  refine ⟨by rw [eq₂, eq₁, append_assoc], ?_, ?_, ?_, ?_, ?_⟩
  · refine nodup_append.mpr ⟨distinct₂, distinct₁, fun a inNew b inOld same => ?_⟩
    refine fresh₂ a inNew ?_
    rw [eq₁, same]
    exact mem_append_left visited inOld
  · intro m member
    rcases mem_append.mp member with later | earlier
    · refine fun old => fresh₂ m later ?_
      rw [eq₁]
      exact mem_append_right new old
    · exact fresh₁ m earlier
  · intro m member
    rcases mem_append.mp member with later | earlier
    · obtain ⟨l, root, reach⟩ := reached₂ m later
      exact ⟨l, mem_append_right ls root, reach⟩
    · obtain ⟨l, root, reach⟩ := reached₁ m earlier
      exact ⟨l, mem_append_left ls' root, reach⟩
  · intro l root
    rcases mem_append.mp root with earlier | later
    · exact grows l (roots₁ l earlier)
    · exact roots₂ l later
  · intro m member
    rcases mem_append.mp member with later | earlier
    · exact closed₂ m later
    · obtain ⟨ks, node, next⟩ := closed₁ m earlier
      exact ⟨ks, node, fun k edge => grows k (next k edge)⟩

theorem Walked.node {ks : List ν} (node : G l = some ks) (unseen : l ∉ visited)
    (behind : Walked G ks new (l :: visited) visited') : Walked G [l] (new ++ [l]) visited visited' := by
  obtain ⟨eq, distinct, fresh, reached, roots, closed⟩ := behind
  have here : l ∈ visited' := eq ▸ mem_append_right new mem_cons_self
  refine ⟨by rw [eq, append_assoc, singleton_append], ?_, ?_, ?_, ?_, ?_⟩
  · refine nodup_append.mpr ⟨distinct, pairwise_singleton _ l, fun a inNew b last same => ?_⟩
    refine fresh a inNew ?_
    rw [same, mem_singleton.mp last]
    exact mem_cons_self
  · intro m member
    rcases mem_append.mp member with inNew | last
    · exact fun old => fresh m inNew (mem_cons_of_mem l old)
    · rwa [mem_singleton.mp last]
  · intro m member
    refine ⟨l, mem_singleton_self l, ?_⟩
    rcases mem_append.mp member with inNew | last
    · obtain ⟨k, target, reach⟩ := reached m inNew
      exact .head ⟨ks, node, target⟩ reach
    · rw [mem_singleton.mp last]
      exact .refl
  · intro m member
    rwa [mem_singleton.mp member]
  · intro m member
    rcases mem_append.mp member with inNew | last
    · exact closed m inNew
    · rw [mem_singleton.mp last]
      exact ⟨ks, node, roots⟩

/-- A node that is listed when all behind it has been met. -/
theorem Walked.finish {ks : List ν} (node : G l = some ks) (finite : Finite G l)
    (unseen : l ∉ visited) (behind : Walked G ks new visited visited') :
    Walked G [l] (l :: new) visited (l :: visited') := by
  obtain ⟨eq, distinct, fresh, reached, roots, closed⟩ := behind
  refine ⟨by rw [eq, cons_append], nodup_cons.mpr ⟨fun around => ?_, distinct⟩,
    forall_mem_cons.mpr ⟨unseen, fresh⟩, fun m member => ⟨l, mem_singleton_self l, ?_⟩, fun m member => ?_,
    forall_mem_cons.mpr ⟨⟨ks, node, fun k target => mem_cons_of_mem l (roots k target)⟩, fun m member => ?_⟩⟩
  · obtain ⟨k, target, back⟩ := reached l around
    exact finite.acyclic (.head' ⟨ks, node, target⟩ back)
  · rcases mem_cons.mp member with rfl | later
    · exact .refl
    · obtain ⟨k, target, reach⟩ := reached m later
      exact .head ⟨ks, node, target⟩ reach
  · rw [mem_singleton.mp member]
    exact mem_cons_self
  · obtain ⟨ks', node', next⟩ := closed m member
    exact ⟨ks', node', fun k target => mem_cons_of_mem l (next k target)⟩

/-- What is met from one node on, when nothing was met before. -/
theorem Walked.met (walked : Walked G [l] new [] visited) :
    visited = new ∧ visited.Nodup ∧ ∀ m, m ∈ visited ↔ Reach G l m := by
  obtain ⟨eq, distinct, _, reached, roots, closed⟩ := walked
  rw [append_nil] at eq
  subst eq
  refine ⟨rfl, distinct, fun m => ⟨fun member => ?_, fun reach => ?_⟩⟩
  · obtain ⟨l', root, reach⟩ := reached m member
    rwa [mem_singleton.mp root] at reach
  · induction reach with
    | refl => exact roots l (mem_singleton_self l)
    | tail _ edge ih =>
      obtain ⟨ks, node, member⟩ := edge
      obtain ⟨ks', node', next⟩ := closed _ ih
      rw [node] at node'
      cases node'
      exact next _ member

section Walk
variable [DecidableEq ν] {arrive finish : ν → σ → σ}

variable {l : ν}

theorem walk_cases {fuel : Nat} {w w' : Walk ν σ} (done : walk G arrive finish fuel l w = some w') :
    ∃ ks rest, fuel = rest + 1 ∧ G l = some ks ∧
      (l ∈ w.visited ∧ w' = ⟨w.visited, arrive l w.state⟩ ∨
        l ∉ w.visited ∧ ∃ w₁, each (walk G arrive finish rest) ks ⟨l :: w.visited, arrive l w.state⟩ = some w₁ ∧
          w' = ⟨w₁.visited, finish l w₁.state⟩) := by
  cases fuel with
  | zero => cases done
  | succ rest =>
    obtain ⟨ks, node, visit⟩ := bind_eq_some_iff.mp done
    refine ⟨ks, rest, rfl, node, ?_⟩
    by_cases seen : l ∈ w.visited
    · rw [if_pos seen] at visit
      exact .inl ⟨seen, (Option.some.inj visit).symm⟩
    · rw [if_neg seen] at visit
      obtain ⟨w₁, behind, rfl⟩ := map_eq_some_iff.mp visit
      exact .inr ⟨seen, w₁, behind, rfl⟩

/-- How a walk from `ls` that meets `new` may change the state. -/
structure Rule (G : FlowGraph ν) (arrive finish : ν → σ → σ) (R : List ν → List ν → σ → σ → Prop) : Prop where
  nil : ∀ s, R [] [] s s
  append : ∀ {ls ls' new new' s s' s''}, R ls new s s' → R ls' new' s' s'' → R (ls ++ ls') (new' ++ new) s s''
  seen : ∀ l s, R [l] [] s (arrive l s)
  node : ∀ {l ks new s s'}, G l = some ks → R ks new (arrive l s) s' → R [l] (new ++ [l]) s (finish l s')

theorem Rule.walk {R : List ν → List ν → σ → σ → Prop} (rule : Rule G arrive finish R) {fuel : Nat}
    {w w' : Walk ν σ} (done : walk G arrive finish fuel l w = some w') :
    ∃ new, Walked G [l] new w.visited w'.visited ∧ R [l] new w.state w'.state := by
  induction fuel generalizing l w w' with
  | zero => cases done
  | succ fuel ih =>
    have all : ∀ ks w w', each (FlowGraph.walk G arrive finish fuel) ks w = some w' →
        ∃ new, Walked G ks new w.visited w'.visited ∧ R ks new w.state w'.state := by
      intro ks
      induction ks with
      | nil =>
        intro w w' done
        cases done
        exact ⟨[], .nil _, rule.nil _⟩
      | cons k ks ihKs =>
        intro w w' done
        obtain ⟨w₁, first, rest⟩ := bind_eq_some_iff.mp done
        obtain ⟨new, walked, state⟩ := ih first
        obtain ⟨new', walked', state'⟩ := ihKs w₁ w' rest
        exact ⟨new' ++ new, walked.append walked', rule.append state state'⟩
    obtain ⟨ks, rest, same, node, seen, rfl⟩ | ⟨ks, rest, same, node, unseen, w₁, behind, rfl⟩ := by
      simpa only [exists_or, and_or_left] using walk_cases done
    · exact ⟨[], .seen seen, rule.seen l _⟩
    · cases same
      obtain ⟨new, walked, state⟩ := all ks _ w₁ behind
      exact ⟨new ++ [l], walked.node node unseen, rule.node node state⟩

/-- Where every path ends, enough fuel gives a result. -/
theorem walk_settles (arrive finish : ν → σ → σ) (finite : Finite G l) (w : Walk ν σ) :
    ∃ w', Settles (walk G arrive finish · l w) w' := by
  induction finite generalizing w with
  | @mk l ks node next ih =>
    by_cases seen : l ∈ w.visited
    · exact ⟨_, .of_succ (fun fuel => by rw [walk, node, bind_some, if_pos seen]) (.of_eq fun _ => rfl)⟩
    · obtain ⟨w₁, behind⟩ := each_settles ih ⟨l :: w.visited, arrive l w.state⟩
      exact ⟨_, .of_succ (fun fuel => by rw [walk, node, bind_some, if_neg seen]) (behind.map _)⟩

theorem walk_met {R : List ν → List ν → σ → σ → Prop} (rule : Rule G arrive finish R) {fuel : Nat} {s : σ}
    {w : Walk ν σ} (done : walk G arrive finish fuel l ⟨[], s⟩ = some w) :
    w.visited.Nodup ∧ (∀ m, m ∈ w.visited ↔ Reach G l m) ∧ R [l] w.visited s w.state := by
  obtain ⟨new, walked, state⟩ := rule.walk done
  obtain ⟨rfl, distinct, met⟩ := walked.met
  exact ⟨distinct, met, state⟩

/-- Counting how often each node is come to. -/
def arrivals (l : ν) (counts : ν → Nat) : ν → Nat := fun k => if k = l then counts k + 1 else counts k

theorem arrivals_rule : Rule G arrivals (fun _ counts => counts) fun ls new counts counts' =>
    ∀ k, counts' k = counts k + ls.count k + (new.map fun m => ((G m).getD []).count k).sum where
  nil := fun counts k => rfl
  append := by
    intro ls ls' new new' s s' s'' first rest k
    rw [rest k, first k, count_append, map_append, sum_append]
    omega
  seen := by
    intro l s k
    rw [arrivals, count_singleton]
    by_cases same : k = l
    · simp [same]
    · simp [same, Ne.symm same]
  node := by
    intro l ks new s s' node behind k
    rw [behind k, map_append, sum_append, map_singleton, sum_singleton, node, getD_some, arrivals, count_singleton]
    by_cases same : k = l
    · simp only [same, if_true, beq_self_eq_true]
      omega
    · simp only [same, if_false, beq_iff_eq, Ne.symm same]
      omega

omit [DecidableEq ν] in
theorem le_sum_of_two {f : ν → Nat} {xs : List ν} {m : ν} (other : l ≠ m) (first : l ∈ xs) (second : m ∈ xs) :
    f l + f m ≤ (xs.map f).sum := by
  have one : ∀ {xs : List ν} {l}, l ∈ xs → f l ≤ (xs.map f).sum := by
    intro xs l member
    obtain ⟨before, rest, rfl⟩ := append_of_mem member
    rw [map_append, sum_append, map_cons, sum_cons]
    omega
  obtain ⟨before, rest, rfl⟩ := append_of_mem first
  rw [map_append, sum_append, map_cons, sum_cons]
  rcases mem_append.mp second with earlier | later
  · have bound := one earlier
    omega
  · have bound := one ((mem_cons.mp later).resolve_left (Ne.symm other))
    omega

/-- A node that is come to once has one edge to it. -/
theorem arrivals_one {fuel : Nat} {start k : ν} {w : Walk ν (ν → Nat)}
    (done : walk G arrivals (fun _ counts => counts) fuel start ⟨[], fun _ => 0⟩ = some w) (once : w.state k = 1)
    (reach : Reach G start l) (edge : Edge G l k) :
    k ≠ start ∧ ∀ m, Reach G start m → Edge G m k → m = l := by
  obtain ⟨_, met, counts⟩ := walk_met arrivals_rule done
  obtain ⟨ks, node, member⟩ := edge
  have here : 1 ≤ ((G l).getD []).count k := by
    rw [node, getD_some]
    exact count_pos_iff.mpr member
  have total := counts k
  rw [once] at total
  refine ⟨fun same => ?_, fun m reach' ⟨ks', node', member'⟩ => ?_⟩
  · obtain ⟨before, rest, eq⟩ := append_of_mem ((met l).mpr reach)
    have root : [start].count k = 1 := by rw [same, count_singleton_self]
    rw [root, eq, map_append, sum_append, map_cons, sum_cons] at total
    omega
  · by_contra other
    have there : 1 ≤ ((G m).getD []).count k := by
      rw [node', getD_some]
      exact count_pos_iff.mpr member'
    have bound := le_sum_of_two (f := fun m => ((G m).getD []).count k) other ((met m).mpr reach') ((met l).mpr reach)
    omega

end Walk

/-- The successors of each node of the list come after it. -/
def Topological (G : FlowGraph ν) : List ν → Prop
  | [] => True
  | l :: rest => (∃ ks, G l = some ks ∧ ∀ k ∈ ks, k ∈ rest) ∧ Topological G rest

/-- The nodes in the order in which a walk is done with them, the last first. What has been met and is not done
is on the way to where the walk is. -/
theorem walk_topological [DecidableEq ν] {fuel : Nat} {w w' : Walk ν (List ν)} {way : List ν}
    (done : walk G (fun _ chain => chain) List.cons fuel l w = some w') (finite : Finite G l)
    (onWay : ∀ m ∈ way, Relation.TransGen (Edge G) m l) (met : ∀ m ∈ w.visited, m ∈ w.state ∨ m ∈ way)
    (sorted : Topological G w.state) :
    Topological G w'.state ∧ (∀ m ∈ w'.visited, m ∈ w'.state ∨ m ∈ way) ∧ l ∈ w'.state ∧
      ∃ front, w'.state = front ++ w.state := by
  induction fuel generalizing l w w' way with
  | zero => cases done
  | succ fuel ih =>
    have all : ∀ (ks : List ν) (way : List ν) (w w' : Walk ν (List ν)),
        each (walk G (fun _ chain => chain) List.cons fuel) ks w = some w' → (∀ k ∈ ks, Finite G k) →
        (∀ k ∈ ks, ∀ m ∈ way, Relation.TransGen (Edge G) m k) → (∀ m ∈ w.visited, m ∈ w.state ∨ m ∈ way) →
        Topological G w.state →
        Topological G w'.state ∧ (∀ m ∈ w'.visited, m ∈ w'.state ∨ m ∈ way) ∧ (∀ k ∈ ks, k ∈ w'.state) ∧
          ∃ front, w'.state = front ++ w.state := by
      intro ks way
      induction ks with
      | nil =>
        intro w w' done _ _ met sorted
        cases done
        exact ⟨sorted, met, forall_mem_nil _, [], rfl⟩
      | cons k ks ihKs =>
        intro w w' done finite onWay met sorted
        obtain ⟨w₁, first, rest⟩ := bind_eq_some_iff.mp done
        obtain ⟨sorted₁, met₁, here, front, eq⟩ :=
          ih first (finite k mem_cons_self) (onWay k mem_cons_self) met sorted
        obtain ⟨sorted₂, met₂, others, front', eq'⟩ := ihKs w₁ w' rest
          (fun k member => finite k (mem_cons_of_mem _ member))
          (fun k member => onWay k (mem_cons_of_mem _ member)) met₁ sorted₁
        refine ⟨sorted₂, met₂, forall_mem_cons.mpr ⟨?_, others⟩, front' ++ front, ?_⟩
        · rw [eq']
          exact mem_append_right front' here
        · rw [eq', eq, append_assoc]
    obtain ⟨ks, rest, same, node, seen, rfl⟩ | ⟨ks, rest, same, node, unseen, w₁, behind, rfl⟩ := by
      simpa only [exists_or, and_or_left] using walk_cases done
    · refine ⟨sorted, met, (met l seen).resolve_right fun back => ?_, [], rfl⟩
      exact finite.acyclic (onWay l back)
    · cases same
      have edges : ∀ k ∈ ks, Edge G l k := fun k member => ⟨ks, node, member⟩
      have onWay' : ∀ k ∈ ks, ∀ m ∈ l :: way, Relation.TransGen (Edge G) m k := by
        intro k member m before
        rcases mem_cons.mp before with rfl | earlier
        · exact .single (edges k member)
        · exact (onWay m earlier).tail (edges k member)
      have met' : ∀ m ∈ l :: w.visited, m ∈ w.state ∨ m ∈ l :: way := by
        intro m before
        rcases mem_cons.mp before with rfl | earlier
        · exact .inr mem_cons_self
        · exact (met m earlier).imp_right (mem_cons_of_mem l)
      obtain ⟨sorted₁, met₁, successors, front, eq⟩ := all ks (l :: way) ⟨l :: w.visited, w.state⟩ w₁ behind
        (fun k member => finite.of_edge (edges k member)) onWay' met' sorted
      refine ⟨⟨⟨ks, node, successors⟩, sorted₁⟩, ?_, mem_cons_self, l :: front, ?_⟩
      · intro m member
        rcases met₁ m member with finished | before
        · exact .inl (mem_cons_of_mem l finished)
        · rcases mem_cons.mp before with rfl | earlier
          · exact .inl mem_cons_self
          · exact .inr earlier
      · show l :: w₁.state = (l :: front) ++ w.state
        rw [eq]
        rfl

end FlowGraph
