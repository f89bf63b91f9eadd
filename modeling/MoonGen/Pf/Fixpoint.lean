import MoonGen.Pf.Simplify

namespace MoonGen

open List Option

namespace Pf

open FlowGraph

/-- The number of blocks on the paths from a block, with those that paths share counted for each. -/
def Sizes (T : Blocks) (size : Nat → Nat) : Prop :=
  ∀ l B, Finite T.graph l → T l = some B → size l = (B.control.targets.map size).sum + 1

theorem exists_sizes (T : Blocks) : ∃ size, Sizes T size := by
  obtain ⟨size, values⟩ := exists_values (G := T.graph) (fun l f => (((T.graph l).getD []).map f).sum + 1)
    fun l ks f g node same => by
      simp only [node, getD_some]
      rw [map_congr_left same]
  refine ⟨size, fun l B finite here => ?_⟩
  rw [values l finite, Blocks.graph, here, map_some, getD_some]

theorem Sizes.pos {T : Blocks} {size : Nat → Nat} (sizes : Sizes T size) {l : Nat} (finite : Finite T.graph l) :
    0 < size l := by
  obtain ⟨node, _⟩ := id finite
  obtain ⟨B, here, _⟩ := map_eq_some_iff.mp node
  rw [sizes l B finite here]
  exact Nat.succ_pos _

theorem Sizes.skip {T : Blocks} {size : Nat → Nat} (sizes : Sizes T size) {k : Nat} {K : Block}
    (finite : Finite T.graph k)
    (here : T k = some K) : size (K.skip k) ≤ size k ∧ (size (K.skip k) = size k → K.skip k = k) := by
  rcases K.skip_cases k with ⟨k', _, control, same⟩ | same
  · have whole := sizes k K finite here
    rw [control] at whole
    simp only [Control.targets, map_cons, map_nil, sum_cons, sum_nil] at whole
    rw [same]
    exact ⟨by omega, fun equal => by omega⟩
  · exact ⟨Nat.le_of_eq (congrArg size same), fun _ => same⟩

theorem sum_le_of_forall_le {f g : Nat → Nat} {ks : List Nat} (least : ∀ k ∈ ks, f k ≤ g k) :
    (ks.map f).sum ≤ (ks.map g).sum ∧ ((ks.map f).sum = (ks.map g).sum → ∀ k ∈ ks, f k = g k) := by
  induction ks with
  | nil => exact ⟨Nat.le_refl _, fun _ k inside => absurd inside not_mem_nil⟩
  | cons k ks ih =>
    obtain ⟨first, rest⟩ := forall_mem_cons.mp least
    obtain ⟨le, equal⟩ := ih rest
    simp only [map_cons, sum_cons, forall_mem_cons]
    exact ⟨by omega, fun same => ⟨by omega, equal (by omega)⟩⟩

/-- A round that does not make the paths shorter changes nothing that is reached. -/
theorem Simplifies.size {p q : Ssa} {uses : Nat → Nat} {val : Nat → Block} (simplifies : Simplifies p q uses val)
    {size size' : Nat → Nat} (sizes : Sizes p.blocks size) (sizes' : Sizes q.blocks size')
    (ends : ∀ l, p.Reached l → Finite q.blocks.graph l) {l : Nat} (finite : Finite p.blocks.graph l)
    (reach : p.Reached l) :
    size' l ≤ size l ∧ (size' l = size l → ∀ m, Reach p.blocks.graph l m → q.blocks m = p.blocks m) := by
  induction finite with
  | @mk l ks node next ih =>
    obtain ⟨B, here, rfl⟩ := map_eq_some_iff.mp node
    have whole := sizes l B (.mk node next) here
    have there := simplifies.found reach
    have whole' := sizes' l _ (ends l reach) there
    have behind : ∀ k ∈ B.control.targets, p.Reached k := fun k target => reach.tail ⟨_, node, target⟩
    have least : ∀ k ∈ B.control.targets, size' k ≤ size k := fun k target => (ih k target (behind k target)).1
    have joined := simplifies.joined reach here
    -- nothing has changed when no block behind has, and the block itself has not
    have kept : val l = B → (∀ k ∈ B.control.targets, size' k = size k) →
        ∀ m, Reach p.blocks.graph l m → q.blocks m = p.blocks m := by
      intro same equal m way
      rcases Relation.ReflTransGen.cases_head way with rfl | ⟨k, edge, rest⟩
      · rw [there, here, same]
      · have target := Blocks.mem_targets here edge
        exact (ih k target (behind k target)).2 (equal k target) m rest
    generalize val l = C at there whole' joined kept
    cases joined with
    | same =>
      obtain ⟨le, equal⟩ := sum_le_of_forall_le least
      exact ⟨by omega, fun same => kept rfl (equal (by omega))⟩
    | @merged k control =>
      rw [control] at whole behind least
      simp only [Control.targets, mem_singleton, forall_eq, map_cons, map_nil, sum_singleton]
        at whole behind least
      have equal : size' l = size' k := whole'.trans (sizes' k _ (ends k behind) (simplifies.found behind)).symm
      exact ⟨by omega, fun same => by omega⟩
    | @decided test test' kt kf vt vf control =>
      have pos := sizes.pos (next kt (by rw [control]; exact mem_cons_self))
      rw [control] at whole
      simp only [Control.targets, map_cons, map_nil, sum_cons, sum_nil] at whole whole'
      exact ⟨by omega, fun same => by omega⟩
    | @skipped test kt kf control =>
      have skip : ∀ k ∈ B.control.targets, _ := fun k target =>
        sizes'.skip (ends k (behind k target)) (simplifies.found (behind k target))
      rw [control] at whole least skip kept
      simp only [Control.targets, map_cons, map_nil, sum_cons, sum_nil, mem_cons,
        not_mem_nil, or_false, forall_eq_or_imp, forall_eq] at whole whole' least skip kept
      refine ⟨by omega, fun same => kept ?_ (by omega)⟩
      rw [skip.1.2 (by omega), skip.2.2 (by omega), ← control]

theorem Ssa.blocks_eq_of_equals {p q : Ssa} (same : q.equals p = true)
    (keysP : ∀ l B, p.blocks l = some B → l ∈ p.labels)
    (keysQ : ∀ l B, q.blocks l = some B → l ∈ q.labels) : q.blocks = p.blocks := by
  rw [equals, Bool.and_eq_true, List.all_eq_true] at same
  funext l
  by_cases member : l ∈ q.labels ++ p.labels
  · exact of_decide_eq_true (same.2 l member)
  · rw [mem_append, not_or] at member
    rw [eq_none_iff_forall_ne_some.mpr fun B known => member.1 (keysQ l B known),
      eq_none_iff_forall_ne_some.mpr fun B known => member.2 (keysP l B known)]

theorem Ssa.equals_of_eq {p q : Ssa} (start : q.start = p.start) (blocks : q.blocks = p.blocks) : q.equals p = true := by
  simp [equals, start, blocks]

/-- No block is there that is not reached. -/
def Ssa.Trim (p : Ssa) : Prop := ∀ l B, p.blocks l = some B → p.Reached l

theorem Sealed.of_reach {T : Blocks} {S : Name → Prop} {l m : Nat} (closed : Sealed T S l) (reach : Reach T.graph l m) :
    ∃ S', Sealed T S' m := by
  induction reach with
  | refl => exact ⟨S, closed⟩
  | tail _ edge ih =>
    obtain ⟨_, @⟨_, _, B, here, _, next⟩⟩ := ih
    exact ⟨_, next _ (Blocks.mem_targets here edge)⟩

section
variable {p q : Ssa} {uses : Nat → Nat} {val : Nat → Block} (simplifies : Simplifies p q uses val)

include simplifies

theorem Simplifies.trim (kept : ∀ m, p.Reached m → q.blocks m = p.blocks m) : q.Trim := by
  intro l B here
  have old := (simplifies.reached here).1
  clear here
  rw [Ssa.Reached, simplifies.start]
  induction old with
  | refl => exact .refl
  | tail before edge ih =>
    obtain ⟨C, there, member⟩ := Blocks.edge_iff.mp edge
    exact ih.tail (Blocks.edge_iff.mpr ⟨C, (kept _ before).trans there, member⟩)

theorem Simplifies.blocks_eq (trim : p.Trim) (kept : ∀ m, p.Reached m → q.blocks m = p.blocks m) :
    q.blocks = p.blocks := by
  funext m
  by_cases reach : p.Reached m
  · exact kept m reach
  · rw [eq_none_iff_forall_ne_some.mpr fun B there => reach (simplifies.reached there).1,
      eq_none_iff_forall_ne_some.mpr fun B here => reach (trim m B here)]

end

/-- What the rounds come to. -/
structure Optimizes (p q : Ssa) : Prop where
  wf : q.WellFormed
  trim : q.Trim
  keys : ∀ l, l ∈ q.labels ↔ ∃ B, q.blocks l = some B
  runs : ∀ {α : Type} (M : Meaning α) (ρ : Env α) (b : Bool), M.Inverts →
    (∃ n, Runs M p.blocks n ρ p.start b) → ∃ n, Runs M q.blocks n ρ q.start b

open Classical in
/-- The rounds end: each makes the paths shorter, takes away what is not reached, or is the last. -/
theorem optimizeSsa_settles {p : Ssa} (wf : p.WellFormed) : ∃ q, Settles (optimizeSsa · p) q ∧ Optimizes p q := by
  obtain ⟨size, sizes⟩ := exists_sizes p.blocks
  induction rounds : 2 * size p.start + (if p.Trim then 0 else 1) using Nat.strongRecOn generalizing p size with
  | ind n ih =>
    obtain ⟨q, uses, val, round, simplifies⟩ := simplify_settles wf.closed.finite
    have wf' := simplifies.wellFormed wf
    have keeps {α : Type} (M : Meaning α) (ρ : Env α) (b : Bool) (inverts : M.Inverts) :
        (∃ n, Runs M p.blocks n ρ p.start b) → ∃ n, Runs M q.blocks n ρ q.start b := fun ⟨n, runs⟩ =>
      simplifies.start ▸ simplifies.runs inverts runs .refl
    have next {r : Ssa} (rest : Settles (fun fuel => if q.equals p then some q else optimizeSsa fuel q) r) :
        Settles (optimizeSsa · p) r :=
      .of_succ (fun fuel => optimizeSsa.eq_2 p fuel) (round.bind rest)
    by_cases same : q.equals p = true
    · have blocks := Ssa.blocks_eq_of_equals same wf.keys wf'.keys
      refine ⟨q, next (.of_eq fun _ => if_pos same), wf', simplifies.trim fun m _ => congrFun blocks m, fun l => ?_, keeps⟩
      refine ⟨fun listed => ⟨val l, ?_⟩, fun ⟨B, here⟩ => wf'.keys l B here⟩
      rw [simplifies.blocks, if_pos listed]
    · obtain ⟨size', sizes'⟩ := exists_sizes q.blocks
      have ends : ∀ l, p.Reached l → Finite q.blocks.graph l := fun l reach => by
        obtain ⟨S, closed⟩ := wf.closed.of_reach reach
        exact (simplifies.closed closed reach).finite
      obtain ⟨le, kept⟩ := simplifies.size sizes sizes' ends wf.closed.finite .refl
      have fewer : 2 * size' q.start + (if q.Trim then 0 else 1) < n := by
        rw [← rounds, simplifies.start]
        rcases Nat.lt_or_ge (size' p.start) (size p.start) with shorter | equal
        · split <;> split <;> omega
        · -- nothing that is reached has changed, so blocks that are not reached are gone
          have kept := kept (by omega)
          rw [if_pos (simplifies.trim kept), if_neg fun trim => ?_]
          · omega
          · exact same (Ssa.equals_of_eq simplifies.start (simplifies.blocks_eq trim kept))
      obtain ⟨r, rest, wf'', trim, keys, runs⟩ := ih _ fewer wf' size' sizes' rfl
      refine ⟨r, next ?_, wf'', trim, keys, fun M ρ b inverts start => runs M ρ b inverts (keeps M ρ b inverts start)⟩
      simpa only [if_neg same] using rest

end Pf

end MoonGen
