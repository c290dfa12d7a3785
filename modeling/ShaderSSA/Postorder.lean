import ShaderSSA.Arena
import ShaderSSA.BitSet
import ShaderSSA.Block

/-! Depth-first search of the control flow. Every block is entered at most once and looked at
once per successor and once to leave, so three steps a block are enough. -/

namespace ShaderSSA

abbrev Blocks := Arena .block Block

def entryBlock : BlockId := ⟨0⟩

def Blocks.successors (blocks : Blocks) (b : BlockId) : List BlockId :=
  match blocks.get? b with
  | some block => block.terminator.successors
  | none => []

def Blocks.preds (blocks : Blocks) (b : BlockId) : List BlockId :=
  match blocks.get? b with
  | some block => block.preds
  | none => []

/-- The path being searched, innermost block first, with the successors still to look at; and
the blocks already left, the last one first. -/
structure Search where
  visited : BitSet
  path : List (BlockId × List BlockId)
  finished : List BlockId

namespace Search

def ofEntry (blocks : Blocks) : Search :=
  ⟨(BitSet.ofCapacity blocks.size).insert entryBlock.index,
    [(entryBlock, blocks.successors entryBlock)], []⟩

def step (blocks : Blocks) (s : Search) : Search :=
  match s.path with
  | [] => s
  | (b, []) :: rest => { s with path := rest, finished := b :: s.finished }
  | (b, t :: ts) :: rest =>
    if s.visited.contains t.index then { s with path := (b, ts) :: rest }
    else
      { s with
        visited := s.visited.insert t.index
        path := (t, blocks.successors t) :: (b, ts) :: rest }

def run (blocks : Blocks) : Nat → Search → Search
  | 0, s => s
  | n + 1, s => if s.path.isEmpty then s else run blocks n (s.step blocks)

def complete (blocks : Blocks) : Search := run blocks (3 * blocks.size) (ofEntry blocks)

end Search

/-- The blocks reachable from the entry, each before the blocks it was left after. -/
def Blocks.reversePostorder (blocks : Blocks) : List BlockId := (Search.complete blocks).finished

end ShaderSSA
