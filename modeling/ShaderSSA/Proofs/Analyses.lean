import ShaderSSA.Proofs.Operations
import ShaderSSA.Proofs.Tree

/-! What a function knows of its control flow. The tree that is kept is the one of the blocks there
are, whatever has been done to the function, and that tree is the dominance relation. -/

namespace ShaderSSA

namespace Function

variable {f f' : Function}

/-- The flag for the tree is set where there is one. -/
def Flagged (f : Function) : Prop := f.dominance.isSome = f.valid.dominance

theorem Flagged.change (hf : f.Flagged) (h : Change f f') : f'.Flagged := by
  rcases h.flow with rfl | ⟨b, t, h⟩ | ⟨-, -, hm⟩
  · rfl
  · obtain ⟨x, P, B, -, -, -, -, -, rfl⟩ := setTerminator_ok h
    rfl
  · exact hm hf

theorem Reached.flagged (hf : f.Reached) : f.Flagged := hf.induct (fun _ => rfl) fun _ _ => .change

/-- The kept tree is never stale: there is one exactly when the flag says so, it is the one of the
blocks there are, and so is the one that is handed out and kept on request. -/
theorem Attained.kept_tree_current (hf : f.Attained) :
    (f.dominance.isSome = true ↔ f.valid.dominance = true) ∧
      (∀ t, f.dominance = some t → t = DominatorTree.build f.blocks) ∧
      f.requireDominance.1 = DominatorTree.build f.blocks ∧
      f.requireDominance.2.dominance = some (DominatorTree.build f.blocks) := by
  have hcached := hf.reached.linked.cached
  refine ⟨by rw [hf.reached.flagged], hcached, ?_⟩
  unfold requireDominance
  split
  · rename_i t ht
    exact ⟨hcached t ht, by rw [ht, hcached t ht]⟩
  · exact ⟨rfl, rfl⟩

/-- Two sums are merged while a tree is kept, after the edges have changed. -/
def mergedLoop : List Operation :=
  [.edit .requireDominance, .edit .addBlock,
    .edit (.insert (.stop ⟨0⟩) (.const [1, 2]) (some ⟨2, 32⟩)),
    .edit (.insert (.stop ⟨0⟩) (.alu ⟨.fadd, [.channel ⟨0⟩ 0, .channel ⟨0⟩ 1]⟩) (some ⟨1, 32⟩)),
    .edit (.insert (.stop ⟨1⟩) (.alu ⟨.fadd, [.channel ⟨0⟩ 1, .channel ⟨0⟩ 1]⟩) (some ⟨1, 32⟩)),
    .edit (.setTerminator ⟨0⟩ (.branch ⟨1⟩ ⟨1⟩ ⟨1⟩)), .edit (.preserve .all),
    .edit .requireDominance, .edit (.setCondition ⟨0⟩ ⟨0⟩), .merge 4 .zero]

theorem mergedLoop_tree_current : (Operation.outcome mergedLoop).Attained ∧
    (Operation.outcome mergedLoop).valid.dominance = true ∧
    (Operation.outcome mergedLoop).blockInstrs ⟨1⟩ = [] ∧
    ∀ t, (Operation.outcome mergedLoop).dominance = some t →
      t = DominatorTree.build (Operation.outcome mergedLoop).blocks :=
  have hf := Attained.outcome mergedLoop
  ⟨hf, by decide +kernel, by decide +kernel, hf.kept_tree_current.2.1⟩

/-- The search comes to an end, meets only blocks that are there, and leaves them in an order in
which an edge leads forward unless it closes a cycle. -/
theorem Attained.reversePostorder_visits (hf : f.Attained) :
    (∀ n, 3 * f.blocks.size ≤ n →
      (Search.run f.blocks n (.ofEntry f.blocks)).path = [] ∧
        (Search.run f.blocks n (.ofEntry f.blocks)).finished = f.blocks.reversePostorder) ∧
    (∀ b ∈ f.blocks.reversePostorder, b ∈ f.layout) ∧
    f.blocks.VisitOrder f.blocks.reversePostorder := by
  have hw := hf.reached.linked.edges.wired
  have horder := Blocks.visitOrder_reversePostorder hw
  refine ⟨fun n hn => ?_, fun b hb => ?_, horder⟩
  · rw [Blocks.run_eq_complete hw.entry hw.target hn]
    exact ⟨Blocks.path_complete hw.entry hw.target, rfl⟩
  · exact (Arena.mem_ids f.blocks b).mpr (hw.index_lt ((horder.mem b).mp hb))

/-- A block that jumps to itself, two edges between the same blocks, an edge back to the middle of
the way, and a block that cannot be reached. -/
def knot : List Operation :=
  [.edit .addBlock, .edit .addBlock, .edit .addBlock, .edit .addBlock,
    .edit (.insert (.stop ⟨0⟩) (.const [1]) (some ⟨1, 32⟩)),
    .edit (.setTerminator ⟨0⟩ (.branch ⟨0⟩ ⟨3⟩ ⟨1⟩)),
    .edit (.setTerminator ⟨1⟩ (.branch ⟨0⟩ ⟨1⟩ ⟨3⟩)),
    .edit (.setTerminator ⟨2⟩ (.jump ⟨0⟩)), .edit (.setTerminator ⟨3⟩ (.branch ⟨0⟩ ⟨4⟩ ⟨4⟩)),
    .edit (.setTerminator ⟨4⟩ (.jump ⟨3⟩))]

theorem knot_reversePostorder_visits : (Operation.outcome knot).Attained ∧
    (Operation.outcome knot).blocks.reversePostorder = [⟨0⟩, ⟨1⟩, ⟨3⟩, ⟨4⟩] ∧
    (Operation.outcome knot).blocks.VisitOrder (Operation.outcome knot).blocks.reversePostorder :=
  have hf := Attained.outcome knot
  ⟨hf, by decide +kernel, hf.reversePostorder_visits.2.2⟩

end Function

/-- The tree says what the ways through the control flow say. -/
structure DominatorTree.Describes (t : DominatorTree) (blocks : Blocks) : Prop where
  dominates : ∀ a b, t.dominates a b = true ↔
    blocks.Reachable a ∧ blocks.Reachable b ∧ ∀ l, blocks.Path l b → a ∈ l
  parent : ∀ b, blocks.Reachable b → b ≠ entryBlock → ∃ p, t.parent? b = some p ∧
    blocks.StrictlyDominates p b ∧ ∀ a, blocks.StrictlyDominates a b → blocks.Dominates a p
  root : ∀ b, b = entryBlock ∨ ¬ blocks.Reachable b → t.parent? b = none
  children : ∀ p, t.children p = blocks.ids.filter (t.parent? · = some p)
  depth : ∀ b, (blocks.strictDominators b).Finite ∧ t.depth b = (blocks.strictDominators b).ncard

theorem DominatorTree.describes_build {blocks : Blocks} (hw : blocks.Wired) :
    (build blocks).Describes blocks where
  dominates a b := by
    rw [dominates_iff hw, ← Blocks.dominates_iff_path]
    exact ⟨fun ⟨hr, hdom⟩ => ⟨hdom.reachable hr, hr, hdom⟩, fun ⟨_, hr, hdom⟩ => ⟨hr, hdom⟩⟩
  parent b hr hb := by
    obtain ⟨p, hp⟩ := exists_parent hw hr hb
    exact ⟨p, hp, ((parent?_eq_some_iff hw).mp hp).2⟩
  root b hb := by
    rw [Option.eq_none_iff_forall_ne_some]
    intro p hp
    obtain ⟨hr, hpb, -⟩ := (parent?_eq_some_iff hw).mp hp
    rcases hb with rfl | hb
    · exact Blocks.not_strictlyDominates_entry hpb
    · exact hb hr
  children := children_eq hw
  depth b := ⟨hw.finite_strictDominators b, depth_eq hw b⟩

/-- The sweeps come to an end, and the tree made of where they end is the dominance relation. -/
theorem Function.Attained.tree_is_dominance {f : Function} (hf : f.Attained) :
    (∃ parents, Parents.ofBlocks f.blocks = .ok parents ∧
      DominatorTree.build f.blocks = .ofParents f.blocks parents) ∧
    (DominatorTree.build f.blocks).Describes f.blocks := by
  have hw := hf.reached.linked.edges.wired
  obtain ⟨parents, hok, -⟩ := Parents.ofBlocks_ok hw
  exact ⟨⟨parents, hok, by rw [DominatorTree.build, hok]⟩, DominatorTree.describes_build hw⟩

/-- A loop with two entries, two edges between the same blocks, an edge back to the entry and one
from a block that cannot be reached. -/
def tangle : List Operation :=
  [.edit .addBlock, .edit .addBlock, .edit .addBlock, .edit .addBlock, .edit .addBlock,
    .edit (.insert (.stop ⟨0⟩) (.const [1]) (some ⟨1, 32⟩)),
    .edit (.setTerminator ⟨0⟩ (.branch ⟨0⟩ ⟨1⟩ ⟨2⟩)), .edit (.setTerminator ⟨1⟩ (.jump ⟨2⟩)),
    .edit (.setTerminator ⟨2⟩ (.branch ⟨0⟩ ⟨1⟩ ⟨3⟩)),
    .edit (.setTerminator ⟨3⟩ (.branch ⟨0⟩ ⟨4⟩ ⟨4⟩)), .edit (.setTerminator ⟨4⟩ (.jump ⟨0⟩)),
    .edit (.setTerminator ⟨5⟩ (.jump ⟨3⟩))]

theorem tangle_tree_is_dominance : (Operation.outcome tangle).Attained ∧
    (Operation.outcome tangle).blocks.preds ⟨3⟩ = [⟨2⟩, ⟨5⟩] ∧
    (DominatorTree.build (Operation.outcome tangle).blocks).parent? ⟨3⟩ = some ⟨2⟩ ∧
    (DominatorTree.build (Operation.outcome tangle).blocks).children ⟨0⟩ = [⟨1⟩, ⟨2⟩] ∧
    (DominatorTree.build (Operation.outcome tangle).blocks).Describes
      (Operation.outcome tangle).blocks :=
  have hf := Function.Attained.outcome tangle
  ⟨hf, by decide +kernel, by decide +kernel, by decide +kernel, hf.tree_is_dominance.2⟩

end ShaderSSA
