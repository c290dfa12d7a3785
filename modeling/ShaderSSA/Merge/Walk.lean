import ShaderSSA.Assoc
import ShaderSSA.Merge.Class
import ShaderSSA.Merge.Pair
import ShaderSSA.Shader

/-! Merging along the dominator tree. Each class has a stack of instructions that dominate the
block being visited; entering a block merges its instructions into the stacks or pushes them,
leaving it takes them off again, so the branches of the tree never see each other. -/

namespace ShaderSSA

/-- What a walk counts. A walk counts from zero and in full; the totals that a caller adds its
counts to have 64 bits. -/
structure MergeStats where
  merged : Nat
  /-- Copies made for readers that are not arithmetic. -/
  copies : Nat
  /-- Attempts refused for their width. -/
  tooWide : Nat
  /-- Stacked readers moved to another class. -/
  reclassified : Nat
  deriving DecidableEq

namespace MergeStats

def zero : MergeStats := ⟨0, 0, 0, 0⟩

def plus (s t : MergeStats) : MergeStats :=
  ⟨s.merged + t.merged, s.copies + t.copies, s.tooWide + t.tooWide,
    s.reclassified + t.reclassified⟩

/-- Adds counts to totals. -/
def merge (s t : MergeStats) : Checked MergeStats := do
  return {
    merged := ← Checked.fit 64 (s.merged + t.merged)
    copies := ← Checked.fit 64 (s.copies + t.copies)
    tooWide := ← Checked.fit 64 (s.tooWide + t.tooWide)
    reclassified := ← Checked.fit 64 (s.reclassified + t.reclassified) }

end MergeStats

/-- An instruction on a stack with the time of its visit. -/
structure Entry where
  instr : InstrId
  seq : Nat
  deriving DecidableEq

/-- Stacks have the latest visit first. `classes` gives the class of every stacked instruction. -/
structure Walk where
  func : Function
  groups : List (ClassKey × List Entry)
  classes : List (InstrId × ClassKey)
  nextSeq : Nat
  stats : MergeStats
  /-- Whether anything has been merged. -/
  progress : Bool

/-- An entry of a stack that took another instruction in. -/
structure Hit where
  candidate : InstrId
  stack : List Entry
  merged : Merged
  func : Function

/-- Tries the entries from the top and counts those that were too wide. -/
def mergeInto (f : Function) (i : InstrId) (limit : Nat) : List Entry → Checked (Nat × Option Hit)
  | [] => return (0, none)
  | e :: below => do
    match ← f.merge? e.instr i limit with
    | some (m, f) => return (0, some ⟨e.instr, { e with instr := m.instr } :: below, m, f⟩)
    | none =>
      let (refused, hit) ← mergeInto f i limit below
      return (refused + 1, hit.map fun h => { h with stack := e :: h.stack })

/-- Later visits stay above the new entry. -/
def insertBySeq (e : Entry) (stack : List Entry) : List Entry :=
  stack.takeWhile (e.seq ≤ ·.seq) ++ e :: stack.dropWhile (e.seq ≤ ·.seq)

namespace Walk

def start (f : Function) : Walk := ⟨f, [], [], 0, .zero, false⟩

def stackOf (w : Walk) (key : ClassKey) : List Entry := (Assoc.get? w.groups key).getD []

/-- Takes an instruction off the stack of its class; an empty stack goes too. -/
def detach (w : Walk) (key : ClassKey) (i : InstrId) : Checked (Entry × Walk) := do
  let stack ← Checked.orElse (.noStack i) (Assoc.get? w.groups key)
  let e ← Checked.orElse (.notOnStack i) (stack.find? (·.instr == i))
  let rest := stack.erase e
  let groups := if rest.isEmpty then Assoc.erase key w.groups else Assoc.set key rest w.groups
  return (e, { w with groups, classes := Assoc.erase i w.classes })

/-- Moves a stacked reader to the class of its new sources, at its old place in time. -/
def reclassify (w : Walk) (i : InstrId) : Checked Walk := do
  match Assoc.get? w.classes i with
  | none => return w
  | some old =>
    let (e, w) ← w.detach old i
    let key ← Checked.orElse (.lostClass i) (← w.func.classOf i)
    return { w with
      groups := Assoc.set key (insertBySeq e (w.stackOf key)) w.groups
      classes := Assoc.set i key w.classes
      stats := { w.stats with reclassified := w.stats.reclassified + 1 } }

def push (w : Walk) (key : ClassKey) (i : InstrId) : Walk :=
  { w with
    groups := Assoc.set key (⟨i, w.nextSeq⟩ :: w.stackOf key) w.groups
    classes := Assoc.set i key w.classes
    nextSeq := w.nextSeq + 1 }

/-- Puts the merged instruction where the candidate was and reclassifies the readers. -/
def accept (w : Walk) (key : ClassKey) (h : Hit) : Checked Walk :=
  h.merged.rewired.foldlM reclassify
    { w with
      func := h.func
      groups := Assoc.set key h.stack w.groups
      classes := Assoc.set h.merged.instr key (Assoc.erase h.candidate w.classes)
      stats := { w.stats with
        merged := w.stats.merged + 1
        copies := w.stats.copies + h.merged.copies }
      progress := true }

/-- Merges an instruction with the nearest member of its class that takes it, or pushes it. -/
def add (limit : Nat) (w : Walk) (i : InstrId) : Checked Walk := do
  match ← w.func.classOf i with
  | none => return w
  | some key =>
    let (refused, hit) ← mergeInto w.func i limit (w.stackOf key)
    let w := { w with stats := { w.stats with tooWide := w.stats.tooWide + refused } }
    match hit with
    | some h => w.accept key h
    | none => return w.push key i

/-- Instructions that a merge has taken out meanwhile are passed over. -/
def enter (limit : Nat) (w : Walk) (b : BlockId) : Checked Walk :=
  (w.func.blockInstrs b).foldlM (fun w i => do
    if (← w.func.instr i).removed then return w
    w.add limit i) w

def drop (w : Walk) (i : InstrId) : Checked Walk :=
  match Assoc.get? w.classes i with
  | none => return w
  | some key => return (← w.detach key i).2

/-- Merged instructions stand in the block of their first half, so what leaves is what is in the
block now. -/
def leave (w : Walk) (b : BlockId) : Checked Walk := (w.func.blockInstrs b).reverse.foldlM drop w

def visit (limit : Nat) (w : Walk) : DominatorTree.Visit → Checked Walk
  | .enter b => w.enter limit b
  | .leave b => w.leave b

end Walk

/-- Merges what can be merged in one walk, and says whether anything was and what was counted. -/
def Function.mergeWalk (f : Function) (limit : Nat) : Checked (Bool × MergeStats × Function) := do
  let (tree, f) := f.requireDominance
  let w ← tree.tour.foldlM (Walk.visit limit) (.start f)
  Checked.require (w.groups.isEmpty && w.classes.isEmpty) .stacksLeft
  return (w.progress, w.stats, w.func.preserve .all)

/-- A walk whose counts go to the totals of the caller. -/
def Function.mergeAll (f : Function) (limit : Nat) (totals : MergeStats) :
    Checked (Bool × MergeStats × Function) := do
  let (changed, counts, f) ← f.mergeWalk limit
  return (changed, ← totals.merge counts, f)

/-- The widest result a merge may have, clamped to what a value can hold. -/
def clampLimit (limit : Nat) : Nat := max 1 (min limit maxWidth)

def mergeFunctions (limit : Nat) : List Function → Checked (Bool × MergeStats × List Function)
  | [] => return (false, .zero, [])
  | f :: fs => do
    let (changed, counts, f) ← f.mergeWalk limit
    let (changedRest, countsRest, fs) ← mergeFunctions limit fs
    return (changed || changedRest, counts.plus countsRest, f :: fs)

/-- Merges in every function. -/
def Shader.mergeAll (s : Shader) (limit : Nat) : Checked (Bool × MergeStats × Shader) := do
  let (changed, counts, functions) ← mergeFunctions limit s.functions
  return (changed, counts, { s with functions })

end ShaderSSA
