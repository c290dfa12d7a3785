import ShaderSSA.Function
import ShaderSSA.Variable

/-! Shaders: variables and functions for one stage. -/

namespace ShaderSSA

inductive Stage where
  | vertex
  | tessControl
  | tessEval
  | geometry
  | fragment
  | compute
  deriving DecidableEq

structure Shader where
  stage : Stage
  vars : Variables
  functions : List Function

namespace Shader

/-- A shader with an empty main function. -/
def ofStage (s : Stage) : Shader := ⟨s, .empty, [.ofName "main"]⟩

/-- Instructions in the blocks of all functions. -/
def size (s : Shader) : Nat := s.functions.foldr (fun f n => f.liveInstrs.length + n) 0

end Shader

end ShaderSSA
