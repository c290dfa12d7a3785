import ShaderSSA.Builder
import ShaderSSA.DerefChain
import ShaderSSA.Split.Stats

/-! Splitting variables. An access to several channels of a variable goes through one variable per
channel instead, created when a channel is first asked for and shared by all later accesses. In
the end the split variables are dropped and the derefs that nobody reads are swept. -/

namespace ShaderSSA

/-- The variable that stands for one channel of another. -/
structure ChannelVar where
  source : VarId
  channel : Nat
  var : VarId
  deriving DecidableEq

structure Splitting where
  vars : Variables
  channels : List ChannelVar
  stats : SplitStats

abbrev SplitEdit := StateT Splitting Checked

/-- Building while channel variables are being created. -/
abbrev ChannelBuild := StateT (Splitting × Builder) Checked

instance (priority := low) : MonadLift Build ChannelBuild where
  monadLift m t := do
    let (a, b) ← m.run t.2
    return (a, t.1, b)

/-- Matrices, records, 64-bit types, patches, always-active variables and built-ins stay whole; a
vertex input counts as no built-in. -/
def Variable.canSplit (v : Variable) (stage : Stage) : Bool :=
  let element := v.type.withoutArray
  let vertexInput := stage == .vertex && v.mode == .shaderIn
  !v.flags.patch && !element.is64Bit && (vertexInput || !v.isBuiltin) && !v.flags.alwaysActive &&
    !element.isMatrix && !element.isRecord

namespace ChannelBuild

def splitting : ChannelBuild Splitting := return (← get).1

/-- The variable for a channel, which is counted from the start of the slot. -/
def channelVar (source : VarId) (channel : Nat) : ChannelBuild VarId := do
  let s ← splitting
  let v ← s.vars.get source
  Checked.require (channel < maxWidth) (.channelPastSlot channel v.name)
  match s.channels.find? fun c => c.source == source && c.channel == channel with
  | some c => return c.var
  | none =>
    let type ← Checked.orElse (.noChannelType v.type.withoutArray) v.type.channelType?
    let (id, vars) := s.vars.add { v with channel, type }
    let s := { s with vars, channels := s.channels ++ [⟨source, channel, id⟩] }
    modify fun t => (s, t.2)
    return id

/-- The array steps of the chain that ends in `src`, repeated on top of `root` with the same
indices. -/
def repeatSteps (root : ValueId) : Nat → ValueId → Build ValueId
  | 0, _ => throw .endless
  | steps + 1, src => do
    match (← Build.derefOf src (.notADeref src)).step with
    | .var _ => return root
    | .element parent index =>
      let parent ← repeatSteps root steps parent
      Build.derefElement parent index

/-- A chain like the one that ends in `src`, to a channel of its variable. -/
def channelDeref (source : VarId) (channel : Nat) (src : ValueId) : ChannelBuild ValueId := do
  let var ← channelVar source channel
  let declaration ← (← splitting).vars.get var
  let root ← Build.derefVar var declaration
  repeatSteps root ((← Build.func).values.size + 1) src

/-- The sample or offset that an interpolation carries beside its deref. -/
def extraSources (a : Access) : Checked (List ValueId) :=
  match a.kind with
  | .interpAtSample | .interpAtOffset => return [← a.src 1]
  | _ => return []

def loadChannel (a : Access) (source : VarId) (first bits k : Nat) : ChannelBuild ValueId := do
  let deref ← channelDeref source (← Checked.fit 8 (first + k)) (← a.src 0)
  let rest ← extraSources a
  Build.insertValue (.access (.ofSources a.kind 1 (deref :: rest))) ⟨1, bits⟩

def loadChannels (a : Access) (source : VarId) (bits : Nat) : ChannelBuild ValueId := do
  let first := (← (← splitting).vars.get source).channel
  let loads ← (List.range a.width).mapM (loadChannel a source first bits)
  Build.vec loads

/-- Stores channel `k` if the mask has it, and says so. -/
def storeChannel (a : Access) (source : VarId) (first : Nat) (v : ValueId) (k : Nat) :
    ChannelBuild Bool := do
  if !(← Checked.maskBit a.writeMask k) then return false
  let deref ← channelDeref source (← Checked.fit 8 (first + k)) (← a.src 0)
  let lane ← Build.channel v k
  let _ ← Build.storeDeref deref lane 1
  return true

def storeChannels (a : Access) (source : VarId) : ChannelBuild (List Bool) := do
  let first := (← (← splitting).vars.get source).channel
  let v ← Build.materialize (.whole (← a.src 1)) a.width
  (List.range a.width).mapM (storeChannel a source first v)

end ChannelBuild

namespace Function

def buildChannels {α : Type} (f : Function) (i : InstrId) (m : ChannelBuild α) :
    SplitEdit (α × Function) := do
  let (a, s, b) ← m.run (← get, ⟨f, .before i⟩)
  set s
  return (a, b.func)

def splitVarLoad (f : Function) (i : InstrId) (dest : Option ValueId) (a : Access)
    (source : VarId) : SplitEdit Function := do
  let v ← Checked.orElse (.loadWithoutDest i) dest
  let bits := (← f.value v).shape.bits
  let (combined, f) ← f.buildChannels i (ChannelBuild.loadChannels a source bits)
  let f ← f.replaceUses v combined
  let f ← f.remove i
  modify fun s => { s with stats := s.stats.countLoad a.width }
  return f

def splitVarStore (f : Function) (i : InstrId) (a : Access) (source : VarId) :
    SplitEdit Function := do
  let (written, f) ← f.buildChannels i (ChannelBuild.storeChannels a source)
  let f ← f.remove i
  modify fun s => { s with stats := s.stats.countStore written }
  return f

/-- Whether an access through a deref of the given mode is split at all: loads of inputs and of
outputs, but stores to outputs only. -/
def splitsAccess (kind : Intrinsic) (mode modes : Mode) : Bool :=
  let splitIn := modes.input && mode == .shaderIn
  let splitOut := modes.output && mode == .shaderOut
  if kind = .storeDeref then splitOut else splitIn || splitOut

def splitVarInstr (stage : Stage) (modes : Mode) (f : Function) (i : InstrId) :
    SplitEdit Function := do
  let instr ← f.instr i
  match instr.body with
  | .access a =>
    if a.width = 1 || !a.kind.isDerefAccess then return f
    let target ← a.src 0
    let deref ← Checked.orElse (.sourceNotDeref a.kind i) (← f.deref target)
    if !deref.mode.intersects modes then return f
    let root ← Checked.orElse (.noRootVariable i) (← f.derefRoot target)
    if !(← (← get).vars.get root).canSplit stage then return f
    if !splitsAccess a.kind deref.mode modes then return f
    if a.kind = .storeDeref then f.splitVarStore i a root else f.splitVarLoad i instr.dest a root
  | _ => return f

def splitVarBlock (stage : Stage) (modes : Mode) (f : Function) (b : BlockId) :
    SplitEdit Function :=
  (f.blockInstrs b).foldlM (splitVarInstr stage modes) f

def splitVars (stage : Stage) (modes : Mode) (f : Function) : SplitEdit Function :=
  f.layout.foldlM (splitVarBlock stage modes) f

end Function

/-- The variables that have channel variables. -/
def Splitting.sources (s : Splitting) : List VarId := (s.channels.map (·.source)).eraseDups

namespace Shader

/-- Splits the accesses that the modes ask for, drops the variables behind them and sweeps. -/
def splitVars (s : Shader) (modes : Mode) : Checked (SplitStats × Shader) := do
  let (functions, t) ← (s.functions.mapM (Function.splitVars s.stage modes)).run
    ⟨s.vars, [], .zero⟩
  let vars := t.sources.foldl Variables.drop t.vars
  let (_, s) ← { s with vars, functions }.sweepDerefs
  return ({ t.stats with vars := t.sources.length }, s)

end Shader

end ShaderSSA
