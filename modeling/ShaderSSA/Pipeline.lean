import ShaderSSA.Check
import ShaderSSA.Merge.Walk
import ShaderSSA.Split.Flat
import ShaderSSA.Split.Variables

/-! Pipelines of passes. Phases follow one another; within a phase the passes run in the order in
which they were registered, and the last phase goes round until a round changes nothing or the
rounds are used up. With checking on, the first pass to leave a defect ends the run. -/

namespace ShaderSSA

inductive Phase where
  /-- Before inputs and outputs are flattened. -/
  | preLowering
  /-- After they are. -/
  | postLowering
  /-- Repeated to a fixed point. -/
  | optimize
  deriving DecidableEq

def Phase.all : List Phase := [.preLowering, .postLowering, .optimize]

structure PipelineConfig where
  /-- Variables to split; none leaves the pass out. -/
  splitVars : Mode
  /-- Flat accesses to split; none leaves the pass out. -/
  splitFlat : Mode
  merge : Bool
  mergeLimit : Nat
  maxRounds : Nat
  check : Bool
  timing : Bool
  deriving DecidableEq

namespace PipelineConfig

def standard : PipelineConfig :=
  { splitVars := .empty
    splitFlat := .inOut
    merge := true
    mergeLimit := maxWidth
    maxRounds := 4
    check := true
    timing := true }

/-- Only splits flat accesses. -/
def minimal : PipelineConfig :=
  { standard with merge := false, maxRounds := 1, check := false, timing := false }

/-- Every pass. -/
def full : PipelineConfig := { standard with splitVars := .inOut, maxRounds := 8 }

end PipelineConfig

/-- A pass keeps a state of its own from run to run and says whether it changed the shader. -/
structure Pass (σ : Type) where
  name : String
  run : σ → Shader → Checked (Bool × σ × Shader)

structure Registered (σ : Type) where
  pass : Pass σ
  state : σ
  phase : Phase
  runs : Nat
  changes : Nat

structure Pipeline (σ : Type) where
  config : PipelineConfig
  passes : List (Registered σ)

structure PipelineStats where
  phasesRun : Nat
  passesRun : Nat
  passesChanged : Nat
  /-- Rounds of the repeated phase. -/
  rounds : Nat
  initialSize : Nat
  finalSize : Nat
  deriving DecidableEq

/-- The pass after which a shader had a defect. -/
structure PipelineError where
  pass : String
  defect : Defect
  deriving DecidableEq

def PipelineError.message (e : PipelineError) : String :=
  "shader invalid after `" ++ e.pass ++ "`: " ++ e.defect.message

namespace PipelineStats

def zero : PipelineStats := ⟨0, 0, 0, 0, 0, 0⟩

/-- Final over initial size. -/
def sizeRatio (s : PipelineStats) : Float :=
  if s.initialSize = 0 then 1
  else (UInt64.ofNat s.finalSize).toFloat / (UInt64.ofNat s.initialSize).toFloat

def countPass (s : PipelineStats) (changed : Bool) : PipelineStats :=
  { s with passesRun := s.passesRun + 1, passesChanged := s.passesChanged + changed.toNat }

def countRound (s : PipelineStats) (phase : Phase) : PipelineStats :=
  if phase = .optimize then { s with rounds := s.rounds + 1 } else s

def countPhase (s : PipelineStats) : PipelineStats := { s with phasesRun := s.phasesRun + 1 }

/-- Adds what a phase has counted to totals, which have 64 bits. -/
def merge (s t : PipelineStats) : Checked PipelineStats := do
  return { s with
    phasesRun := ← Checked.fit 64 (s.phasesRun + t.phasesRun)
    passesRun := ← Checked.fit 64 (s.passesRun + t.passesRun)
    passesChanged := ← Checked.fit 64 (s.passesChanged + t.passesChanged)
    rounds := ← Checked.fit 64 (s.rounds + t.rounds) }

end PipelineStats

namespace Pass

variable {σ : Type}

def splitFlatName : String := "lower_io_to_scalar"

def splitVarsName : String := "lower_io_to_scalar_early"

def mergeName : String := "vectorize"

/-- A pass that splits. What a run has counted goes into the state as `note` says. -/
def split (name : String) (run : Shader → Checked (SplitStats × Shader))
    (note : σ → SplitStats → Checked σ) : Pass σ :=
  ⟨name, fun state s => do
    let (stats, s) ← run s
    let state ← note state stats
    return (← stats.changed, state, s)⟩

def splitVars (modes : Mode) : (σ → SplitStats → Checked σ) → Pass σ :=
  split splitVarsName (·.splitVars modes)

def splitFlat (modes : Mode) : (σ → SplitStats → Checked σ) → Pass σ :=
  split splitFlatName (·.splitFlat modes)

def merge (limit : Nat) (note : σ → MergeStats → Checked σ) : Pass σ :=
  ⟨mergeName, fun state s => do
    let (changed, stats, s) ← s.mergeAll limit
    return (changed, ← note state stats, s)⟩

/-- Leaves the state as it is. -/
def ignore {τ : Type} (state : σ) (_ : τ) : Checked σ := return state

/-! Passes with the counts of all runs so far as their state. -/

def countedSplitVars (modes : Mode) : Pass SplitStats := splitVars modes SplitStats.merge

def countedSplitFlat (modes : Mode) : Pass SplitStats := splitFlat modes SplitStats.merge

def countedMerge (limit : Nat) : Pass MergeStats := merge limit MergeStats.merge

end Pass

namespace Registered

variable {σ : Type}

def ofPass (pass : Pass σ) (state : σ) (phase : Phase) : Registered σ := ⟨pass, state, phase, 0, 0⟩

/-- The entry after a run of its pass. -/
def ran (r : Registered σ) (changed : Bool) (state : σ) : Registered σ :=
  { r with state, runs := r.runs + 1, changes := r.changes + changed.toNat }

end Registered

/-- What running passes leaves behind, whether it ends well or not. -/
structure Session (σ : Type) where
  passes : List (Registered σ)
  shader : Shader
  stats : PipelineStats

/-- Whether anything changed, or the pass to blame. -/
abbrev Verdict := Except PipelineError Bool

namespace Session

variable {σ : Type}

/-- The defect that `pass` left, if shaders are checked. -/
def blame (check : Bool) (pass : String) (s : Shader) : Checked (Option PipelineError) := do
  if !check then return none
  match ← s.check.run with
  | .ok () => return none
  | .error d => return some ⟨pass, d⟩

/-- Runs those of `todo` that belong to the phase, in order; the session's passes are those done. -/
def runPasses (check : Bool) (phase : Phase) : List (Registered σ) → Session σ →
    Checked (Verdict × Session σ)
  | [], s => return (.ok false, s)
  | r :: todo, s => do
    if r.phase ≠ phase then
      runPasses check phase todo { s with passes := s.passes ++ [r] }
    else
      let (changed, state, shader) ← r.pass.run r.state s.shader
      let s : Session σ :=
        ⟨s.passes ++ [r.ran changed state], shader, s.stats.countPass changed⟩
      match ← blame check r.pass.name shader with
      | some e => return (.error e, { s with passes := s.passes ++ todo })
      | none =>
        let (verdict, s) ← runPasses check phase todo s
        return (verdict.map (changed || ·), s)

def runRound (check : Bool) (phase : Phase) (s : Session σ) : Checked (Verdict × Session σ) :=
  runPasses check phase s.passes { s with passes := [] }

/-- At most the given number of rounds, each but the first only after a change. -/
def runRounds (check : Bool) (phase : Phase) : Nat → Session σ → Checked (Verdict × Session σ)
  | 0, s => return (.ok false, s)
  | rounds + 1, s => do
    let (verdict, s) ← s.runRound check phase
    match verdict with
    | .error e => return (.error e, s)
    | .ok changed =>
      let s := { s with stats := s.stats.countRound phase }
      if !changed then return (.ok false, s)
      let (verdict, s) ← runRounds check phase rounds s
      return (verdict.map fun _ => true, s)

def roundsOf (config : PipelineConfig) (phase : Phase) : Nat :=
  if phase = .optimize then max config.maxRounds 1 else 1

def runPhase (config : PipelineConfig) (phase : Phase) (s : Session σ) :
    Checked (Verdict × Session σ) := do
  let (verdict, s) ← s.runRounds config.check phase (roundsOf config phase)
  match verdict with
  | .error e => return (.error e, s)
  | .ok changed => return (.ok changed, { s with stats := s.stats.countPhase })

def runPhases (config : PipelineConfig) : List Phase → Session σ → Checked (Verdict × Session σ)
  | [], s => return (.ok false, s)
  | phase :: phases, s => do
    let (verdict, s) ← s.runPhase config phase
    match verdict with
    | .error e => return (.error e, s)
    | .ok changed =>
      let (verdict, s) ← runPhases config phases s
      return (verdict.map (changed || ·), s)

end Session

namespace Pipeline

variable {σ : Type}

def register (p : Pipeline σ) (pass : Pass σ) (state : σ) (phase : Phase) : Pipeline σ :=
  { p with passes := p.passes ++ [.ofPass pass state phase] }

/-- The passes that the configuration asks for. No one can ask a pipeline what its passes have
counted, so they keep no counts. -/
def ofConfig (config : PipelineConfig) (state : σ) : Pipeline σ :=
  let vars := if config.splitVars.isEmpty then []
    else [Registered.ofPass (.splitVars config.splitVars Pass.ignore) state .preLowering]
  let flat := if config.splitFlat.isEmpty then []
    else [Registered.ofPass (.splitFlat config.splitFlat Pass.ignore) state .postLowering]
  let merge := if config.merge then
    [Registered.ofPass (.merge config.mergeLimit Pass.ignore) state .optimize] else []
  ⟨config, vars ++ flat ++ merge⟩

/-- Runs one phase. What it counts goes to the totals of the caller. -/
def runPhase (p : Pipeline σ) (phase : Phase) (s : Shader) (totals : PipelineStats) :
    Checked (Verdict × Session σ) := do
  let (verdict, t) ← Session.runPhase p.config phase ⟨p.passes, s, .zero⟩
  return (verdict, { t with stats := ← totals.merge t.stats })

/-- Runs every phase, with the sizes of the shader before and after. -/
def run (p : Pipeline σ) (s : Shader) : Checked (Verdict × Session σ) := do
  let start : Session σ := ⟨p.passes, s, { PipelineStats.zero with initialSize := s.size }⟩
  let (verdict, s) ← start.runPhases p.config Phase.all
  return (verdict, { s with stats := { s.stats with finalSize := s.shader.size } })

end Pipeline

end ShaderSSA
