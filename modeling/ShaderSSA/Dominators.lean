import ShaderSSA.Fault
import ShaderSSA.Postorder
import ShaderSSA.SideTable

/-! Dominators. Sweeps through the blocks in reverse postorder put each block below the one at
which the ways up from its predecessors meet, as far as these are placed already. All ways up
share one table, so a block that moves takes along what is below it; once a sweep moves nothing,
every block is below its nearest strict dominator. -/

namespace ShaderSSA

/-- Where each block has been put so far. The entry is its own parent. -/
abbrev Parents := SideTable .block (Option BlockId)

/-- A table on its way through a sweep. -/
structure Sweep where
  parents : Parents
  changed : Bool

namespace Parents

def start (blocks : Blocks) : Parents :=
  (SideTable.ofSize blocks.size).set entryBlock (some entryBlock)

/-- Climbs from two blocks, always from the one later in `order`, to where the ways meet. -/
def meet (t : Parents) (order : List BlockId) : Nat → BlockId → BlockId → Checked BlockId
  | 0, _, _ => throw .endless
  | fuel + 1, a, b =>
    if a = b then return a
    else if order.idxOf b < order.idxOf a then do
      t.meet order fuel (← Checked.inBounds (t.find? a)) b
    else if order.idxOf a < order.idxOf b then do
      t.meet order fuel a (← Checked.inBounds (t.find? b))
    else throw .endless

/-- Takes in a predecessor if it has a parent. -/
def join (t : Parents) (order : List BlockId) (found : Option BlockId) (p : BlockId) :
    Checked (Option BlockId) :=
  match t.find? p, found with
  | none, _ => return found
  | some _, none => return some p
  | some _, some q => return some (← t.meet order (2 * order.length) p q)

/-- Where the ways up from all predecessors that have a parent meet, if any has. -/
def confluence (t : Parents) (order preds : List BlockId) : Checked (Option BlockId) :=
  preds.foldlM (t.join order) none

/-- Puts a block where the ways up from its predecessors meet. -/
def visit (blocks : Blocks) (order : List BlockId) (s : Sweep) (b : BlockId) : Checked Sweep := do
  match ← s.parents.confluence order (blocks.preds b) with
  | none => return s
  | some p =>
    if s.parents.find? b = some p then return s
    return ⟨s.parents.set b (some p), true⟩

/-- Visits every block but the entry, which comes first. -/
def sweep (t : Parents) (blocks : Blocks) (order : List BlockId) : Checked Sweep :=
  order.tail.foldlM (visit blocks order) ⟨t, false⟩

/-- Sweeps until nothing changes. -/
def settle (blocks : Blocks) (order : List BlockId) : Nat → Parents → Checked Parents
  | 0, _ => throw .endless
  | rounds + 1, t => do
    let s ← t.sweep blocks order
    if s.changed then settle blocks order rounds s.parents else return s.parents

/-- A block that moves goes up in the order, so no block moves more often than there are blocks. -/
def ofBlocks (blocks : Blocks) : Checked Parents :=
  let order := blocks.reversePostorder
  settle blocks order (order.length * order.length + 1) (start blocks)

/-- The block above `b`; none for the entry. -/
def above? (t : Parents) (b : BlockId) : Option BlockId := (t.find? b).filter (· != b)

end Parents

structure DominatorTree where
  parents : Parents
  offspring : SideTable .block (List BlockId)
  depths : SideTable .block Nat

namespace DominatorTree

/-- Adds a block at the end of the list of its parent. -/
def adopt (parents : Parents) (t : SideTable .block (List BlockId)) (b : BlockId) :
    SideTable .block (List BlockId) :=
  match parents.above? b with
  | some p => t.set p ((t.get? p).getD [] ++ [b])
  | none => t

/-- Counts on from the depth of the parent. -/
def deepen (parents : Parents) (t : SideTable .block Nat) (b : BlockId) : SideTable .block Nat :=
  match parents.above? b with
  | some p => t.set b ((t.get? p).getD 0 + 1)
  | none => t

def ofParents (blocks : Blocks) (parents : Parents) : DominatorTree where
  parents := parents
  offspring := blocks.ids.foldl (adopt parents) (.ofSize blocks.size)
  depths := blocks.reversePostorder.foldl (deepen parents) (.ofSize blocks.size)

/-- The tree of the control flow; without a single block if the sweeps did not end. -/
def build (blocks : Blocks) : DominatorTree :=
  match Parents.ofBlocks blocks with
  | .ok parents => ofParents blocks parents
  | .error _ => ofParents blocks .empty

def size (t : DominatorTree) : Nat := t.parents.size

def isReachable (t : DominatorTree) (b : BlockId) : Bool := (t.parents.find? b).isSome

/-- The nearest strict dominator; none for the entry and for unreachable blocks. -/
def parent? (t : DominatorTree) (b : BlockId) : Option BlockId := t.parents.above? b

/-- The blocks immediately dominated by `p`, in layout order. -/
def children (t : DominatorTree) (p : BlockId) : List BlockId := (t.offspring.get? p).getD []

def depth (t : DominatorTree) (b : BlockId) : Nat := (t.depths.get? b).getD 0

/-- The first block on the way up from `b` that is no deeper than `depth`. -/
def climb (t : DominatorTree) (depth : Nat) : Nat → BlockId → Option BlockId
  | 0, b => some b
  | steps + 1, b =>
    if depth < t.depth b then (t.parent? b).bind (t.climb depth steps) else some b

def dominates (t : DominatorTree) (a b : BlockId) : Bool :=
  t.isReachable a && t.isReachable b && t.climb (t.depth a) (t.depth b) b == some a

def strictlyDominates (t : DominatorTree) (a b : BlockId) : Bool := a != b && t.dominates a b

inductive Visit where
  | enter (b : BlockId)
  | leave (b : BlockId)
  deriving DecidableEq

/-- Entering and leaving each block of a subtree of height at most `height`, children between. -/
def tourFrom (t : DominatorTree) : Nat → BlockId → List Visit
  | 0, _ => []
  | height + 1, b => .enter b :: (t.children b).flatMap (t.tourFrom height) ++ [.leave b]

def tour (t : DominatorTree) : List Visit := t.tourFrom t.size entryBlock

end DominatorTree

end ShaderSSA
