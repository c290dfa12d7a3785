import ShaderSSA.Builder
import ShaderSSA.Shader
import ShaderSSA.Split.Stats

/-! Splitting flat accesses. A load of several channels becomes one load per channel and a vector
of them; a store becomes one store for each channel of its mask. -/

namespace ShaderSSA

/-- Edits that count what they split. -/
abbrev Counted := StateT SplitStats Checked

namespace Function

/-- One load per channel, and the vector of their results. -/
def loadChannels (a : Access) (bits : Nat) (offset : ValueId) : Build ValueId := do
  let loads ← (List.range a.width).mapM fun k => do
    Build.loadInput ⟨1, bits⟩ offset a.base (← Checked.fit 8 (a.component + k))
  Build.vec loads

def splitLoad (f : Function) (i : InstrId) (dest : Option ValueId) (a : Access) :
    Counted Function := do
  let v ← Checked.orElse (.inputWithoutDest i) dest
  let bits := (← f.value v).shape.bits
  let offset ← a.src 0
  let (combined, f) ← f.build (.before i) (loadChannels a bits offset)
  let f ← f.replaceUses v combined
  let f ← f.remove i
  modify (·.countLoad a.width)
  return f

/-- Stores channel `k` if the mask has it, and says so. -/
def storeChannel (a : Access) (v offset : ValueId) (k : Nat) : Build Bool := do
  if !(← Checked.maskBit a.writeMask k) then return false
  let lane ← Build.channel v k
  let _ ← Build.storeOutput lane offset a.base (← Checked.fit 8 (a.component + k)) 1
  return true

def storeChannels (a : Access) (stored offset : ValueId) : Build (List Bool) := do
  let v ← Build.materialize (.whole stored) a.width
  (List.range a.width).mapM (storeChannel a v offset)

def splitStore (f : Function) (i : InstrId) (a : Access) : Counted Function := do
  let offset ← a.src 1
  let stored ← a.src 0
  let (written, f) ← f.build (.before i) (storeChannels a stored offset)
  let f ← f.remove i
  modify (·.countStore written)
  return f

def splitFlatInstr (modes : Mode) (f : Function) (i : InstrId) : Counted Function := do
  let instr ← f.instr i
  match instr.body with
  | .access a =>
    if a.width = 1 then return f
    match a.kind with
    | .loadInput => if modes.input then f.splitLoad i instr.dest a else return f
    | .storeOutput => if modes.output then f.splitStore i a else return f
    | _ => return f
  | _ => return f

def splitFlatBlock (modes : Mode) (f : Function) (b : BlockId) : Counted Function :=
  (f.blockInstrs b).foldlM (splitFlatInstr modes) f

def splitFlat (modes : Mode) (f : Function) : Counted Function :=
  f.layout.foldlM (splitFlatBlock modes) f

end Function

/-- Splits the flat inputs and outputs that the modes ask for, in every function. -/
def Shader.splitFlat (s : Shader) (modes : Mode) : Checked (SplitStats × Shader) := do
  let (functions, stats) ← (s.functions.mapM (Function.splitFlat modes)).run .zero
  return (stats, { s with functions })

end ShaderSSA
