/-! Channel tables: what a shader reads from and writes to, by slot and component. A table is a
list in the order of its channels with each channel once. -/

namespace ShaderSSA

structure Channel where
  slot : Nat
  component : Nat
  deriving DecidableEq

def Channel.lt (a b : Channel) : Bool :=
  a.slot < b.slot || a.slot == b.slot && a.component < b.component

abbrev Channels := List (Channel × UInt32)

namespace Channels

def get? : Channels → Channel → Option UInt32
  | [], _ => none
  | (d, x) :: rest, c => if c = d then some x else get? rest c

/-- A channel that was never written reads as zero. -/
def read (t : Channels) (c : Channel) : UInt32 := (t.get? c).getD 0

def write (c : Channel) (x : UInt32) : Channels → Channels
  | [] => [(c, x)]
  | (d, y) :: rest =>
    if c = d then (c, x) :: rest
    else if c.lt d then (c, x) :: (d, y) :: rest
    else (d, y) :: write c x rest

/-- Later entries win. -/
def ofList (entries : List (Channel × UInt32)) : Channels :=
  entries.foldl (fun t e => write e.1 e.2 t) []

theorem get?_write (t : Channels) (c d : Channel) (x : UInt32) :
    get? (write c x t) d = if d = c then some x else get? t d := by
  induction t with
  | nil => rfl
  | cons e t ih =>
    obtain ⟨k, y⟩ := e
    by_cases hk : c = k
    · subst hk
      by_cases h : d = c <;> simp [write, get?, h]
    · by_cases hl : c.lt k = true
      · simp [write, hk, hl, get?]
      · by_cases hd : d = k
        · subst hd
          simp [write, hk, hl, get?, Ne.symm hk]
        · simp [write, hk, hl, get?, hd, ih]

end Channels

/-- The state outside a shader. -/
structure IoState where
  inputs : Channels
  uniforms : Channels
  outputs : Channels
  deriving DecidableEq

end ShaderSSA
