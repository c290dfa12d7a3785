import ShaderSSA.Fault

/-! What a split counts. Totals are 64-bit numbers. -/

namespace ShaderSSA

structure SplitStats where
  /-- Loads and interpolations split. -/
  loads : Nat
  stores : Nat
  /-- Single-channel accesses emitted. -/
  emitted : Nat
  /-- Channels of stores left out by the mask. -/
  masked : Nat
  /-- Variables replaced by channel variables. -/
  vars : Nat
  deriving DecidableEq

namespace SplitStats

def zero : SplitStats := ⟨0, 0, 0, 0, 0⟩

def countLoad (s : SplitStats) (channels : Nat) : SplitStats :=
  { s with loads := s.loads + 1, emitted := s.emitted + channels }

/-- One entry per channel of the store: whether it was written. -/
def countStore (s : SplitStats) (written : List Bool) : SplitStats :=
  { s with
    stores := s.stores + 1
    emitted := s.emitted + written.count true
    masked := s.masked + written.count false }

def merge (s t : SplitStats) : Checked SplitStats := do
  return {
    loads := ← Checked.fit 64 (s.loads + t.loads)
    stores := ← Checked.fit 64 (s.stores + t.stores)
    emitted := ← Checked.fit 64 (s.emitted + t.emitted)
    masked := ← Checked.fit 64 (s.masked + t.masked)
    vars := ← Checked.fit 64 (s.vars + t.vars) }

/-- Whether anything was split. -/
def changed (s : SplitStats) : Checked Bool :=
  return (← Checked.fit 64 (s.loads + s.stores)) > 0

end SplitStats

end ShaderSSA
