import ShaderSSA.Proofs.Execution
import ShaderSSA.Proofs.History

/-! Runs that end. Only instructions are charged, so a run ends unless it comes to a round of blocks
that hold none: nothing changes there, and the run goes on for ever whatever the limit is. -/

namespace ShaderSSA

open Relation

namespace Machine

variable {s : Setting} {m m' : Machine} {b c : BlockId} {n k : Nat} {r : Machine × Option Halt}

/-- A block transition leads from the first to the second. -/
def Enters [FloatOps] (s : Setting) (p q : Machine × BlockId) : Prop :=
  transition s p.1 p.2 = .entering q.1 q.2

/-- The block `b` holds no instruction and leads to `c`. -/
def Drifts (s : Setting) (m : Machine) (b c : BlockId) : Prop :=
  ∃ block, s.func.blocks.get? b = some block ∧ block.instrs = [] ∧
    m.next block.terminator = .ok (some c)

theorem Drifts.transition_eq [FloatOps] (h : Drifts s m b c) :
    transition s m b = .entering m c := by
  obtain ⟨block, hblock, hnone, hnext⟩ := h
  simp [transition, hblock, hnone, stepAll, hnext]

theorem step_charges [FloatOps] {i : InstrId} (h : m.step s i = .ok m') :
    m'.steps = m.steps + 1 ∧ m'.steps ≤ s.limit := by
  by_cases hl : s.limit ≤ m.steps
  · simp [step, hl, bind, Except.bind, throw, throwThe, MonadExceptOf.throw] at h
  · simp only [step, hl, if_false, bind_eq_ok] at h
    obtain ⟨x, -, h⟩ := h
    have hsteps := steps_perform h
    simp only at hsteps
    omega

theorem stepAll_charges [FloatOps] {is : List InstrId} (h : stepAll s is m = (m', none)) :
    m'.steps = m.steps + is.length ∧ (is ≠ [] → m'.steps ≤ s.limit) := by
  induction is generalizing m with
  | nil =>
    obtain rfl : m = m' := by simpa [stepAll] using h
    simp
  | cons i is ih =>
    cases hi : m.step s i with
    | error halt => simp [stepAll, hi] at h
    | ok m₁ =>
      obtain ⟨hone, hlimit⟩ := step_charges hi
      obtain ⟨hrest, hlimit'⟩ := ih (by simpa [stepAll, hi] using h)
      refine ⟨by simp only [List.length_cons]; omega, fun _ => ?_⟩
      cases is with
      | nil => simpa [hrest] using hlimit
      | cons j is => exact hlimit' (by simp)

/-- A transition ends the run, drifts on, or charges the budget. -/
theorem transition_cases [FloatOps] (s : Setting) (m : Machine) (b : BlockId) :
    (∃ m' halt, transition s m b = .finished m' halt) ∨ (∃ c, Drifts s m b c) ∨
      ∃ m' c, transition s m b = .entering m' c ∧ m.steps < m'.steps ∧ m'.steps ≤ s.limit := by
  cases hblock : s.func.blocks.get? b with
  | none => exact .inl ⟨m, some (.fault .outOfBounds), by simp only [transition, hblock]⟩
  | some block =>
    rcases hall : stepAll s block.instrs m with ⟨m₁, halt⟩
    cases halt with
    | some halt => exact .inl ⟨m₁, some halt, by simp only [transition, hblock, hall]⟩
    | none =>
      obtain ⟨hsteps, hlimit⟩ := stepAll_charges hall
      cases hnext : m₁.next block.terminator with
      | error halt => exact .inl ⟨m₁, some halt, by simp only [transition, hblock, hall, hnext]⟩
      | ok target =>
        cases target with
        | none => exact .inl ⟨m₁, none, by simp only [transition, hblock, hall, hnext]⟩
        | some c =>
          by_cases hnone : block.instrs = []
          · obtain rfl : m = m₁ := by simpa [hnone, stepAll] using hall
            exact .inr (.inl ⟨c, block, hblock, hnone, hnext⟩)
          · have hpos := List.length_pos_iff.mpr hnone
            refine .inr (.inr ⟨m₁, c, by simp only [transition, hblock, hall, hnext], ?_,
              hlimit hnone⟩)
            omega

theorem runFor_mono [FloatOps] {st : State} (h : runFor s n st = some r) (hk : n ≤ k) :
    runFor s k st = some r := by
  induction n generalizing st k with
  | zero =>
    cases st with
    | finished m halt => cases k <;> exact h
    | entering m b => simp [runFor] at h
  | succ n ih =>
    cases st with
    | finished m halt => cases k <;> exact h
    | entering m b =>
      obtain ⟨k, rfl⟩ : ∃ j, k = j + 1 := ⟨k - 1, by omega⟩
      simp only [runFor] at h ⊢
      exact ih h (by omega)

theorem runFor_round [FloatOps] (h : TransGen (Drifts s m) b b) (n : Nat) :
    runFor s n (.entering m b) = none := by
  induction n generalizing b with
  | zero => rfl
  | succ n ih =>
    obtain ⟨c, hbc, hcb⟩ := TransGen.head'_iff.mp h
    have hround : TransGen (Drifts s m) c c := TransGen.tail' hcb hbc
    simp only [runFor, hbc.transition_eq]
    exact ih hround

theorem runFor_none_of_enters [FloatOps] {p q : Machine × BlockId} (h : ReflTransGen (Enters s) p q)
    (hq : ∀ n, runFor s n (.entering q.1 q.2) = none) (n : Nat) :
    runFor s n (.entering p.1 p.2) = none := by
  induction h using ReflTransGen.head_induction_on generalizing n with
  | refl => exact hq n
  | head hstep _ ih =>
    cases n with
    | zero => rfl
    | succ n =>
      rw [Enters] at hstep
      simp only [runFor, hstep]
      exact ih n

theorem length_le_of_drifted {seen : List BlockId} (hnd : seen.Nodup)
    (hseen : ∀ x ∈ seen, TransGen (Drifts s m) x b) : seen.length ≤ s.func.blocks.size := by
  have hsub : seen ⊆ s.func.blocks.ids := by
    intro x hx
    obtain ⟨y, ⟨block, hblock, -⟩, -⟩ := TransGen.head'_iff.mp (hseen x hx)
    rw [Arena.mem_ids]
    by_contra hlt
    have hnone := (Arena.get?_eq_none_iff s.func.blocks x).mpr (by omega)
    simp [hnone] at hblock
  have hle := (List.subperm_of_subset hnd hsub).length_le
  simpa [Arena.ids] using hle

/-- With no round ahead, a run ends before each charged step has been followed by a visit to every
block. In `seen` are the blocks drifted through since the last charged step. -/
theorem runFor_ends [FloatOps] {seen : List BlockId}
    (hround : ∀ q, ReflTransGen (Enters s) (m, b) q → ¬ TransGen (Drifts s q.1) q.2 q.2)
    (hnd : seen.Nodup) (hseen : ∀ x ∈ seen, TransGen (Drifts s m) x b)
    (hn : (s.limit - m.steps) * (s.func.blocks.size + 1) +
      (s.func.blocks.size + 1 - seen.length) ≤ n) :
    ∃ r, runFor s n (.entering m b) = some r := by
  induction n generalizing m b seen with
  | zero =>
    have hle := length_le_of_drifted hnd hseen
    omega
  | succ n ih =>
    have hle := length_le_of_drifted hnd hseen
    rcases transition_cases s m b with ⟨m', halt, hend⟩ | ⟨c, hdrift⟩ | ⟨m', c, henter, hlt, hlim⟩
    · refine ⟨(m', halt), ?_⟩
      simp only [runFor, hend]
    · have henter : Enters s (m, b) (m, c) := hdrift.transition_eq
      have hround' := fun q hq => hround q (.head henter hq)
      have hnew : b ∉ seen := fun hb => hround (m, b) .refl (hseen b hb)
      simp only [runFor, hdrift.transition_eq]
      refine ih hround' (List.nodup_cons.mpr ⟨hnew, hnd⟩) (fun x hx => ?_) ?_
      · rcases List.mem_cons.mp hx with rfl | hx
        · exact .single hdrift
        · exact (hseen x hx).tail hdrift
      · simp only [List.length_cons]
        omega
    · have hround' := fun q hq => hround q (.head (show Enters s (m, b) (m', c) from henter) hq)
      simp only [runFor, henter]
      refine ih hround' List.nodup_nil (by simp) ?_
      obtain ⟨d, hd⟩ : ∃ d, s.limit - m.steps = s.limit - m'.steps + 1 + d :=
        ⟨m'.steps - m.steps - 1, by omega⟩
      rw [hd, Nat.add_mul, Nat.add_mul] at hn
      simp only [List.length_nil]
      omega

end Machine

namespace Shader

variable {s : Shader} {io : IoState} {limit : Nat}

variable [FloatOps]

/-- What a run has come to after at most `n` block transitions, if it has ended. -/
def runWithin (s : Shader) (n : Nat) (io : IoState) (limit : Nat) : Option Outcome :=
  match s.functions with
  | [] => some ⟨io, some (.error .noFunction)⟩
  | f :: _ =>
    (Machine.runFor ⟨s.vars, f, limit⟩ n (.entering (.start io) entryBlock)).map
      fun r => ⟨r.1.io, r.2⟩

/-- The run comes to a block from which blocks without instructions lead back to it. -/
def GoesRound (s : Shader) (io : IoState) (limit : Nat) : Prop :=
  ∃ f fs m b, s.functions = f :: fs ∧
    ReflTransGen (Machine.Enters ⟨s.vars, f, limit⟩) (.start io, entryBlock) (m, b) ∧
    TransGen (Machine.Drifts ⟨s.vars, f, limit⟩ m) b b

theorem runWithin_mono {n k : Nat} {o : Outcome} (h : s.runWithin n io limit = some o)
    (hk : n ≤ k) : s.runWithin k io limit = some o := by
  unfold runWithin at h ⊢
  split at h
  · exact h
  · obtain ⟨r, hr, rfl⟩ := Option.map_eq_some_iff.mp h
    rw [Machine.runFor_mono hr hk]
    rfl

theorem GoesRound.runWithin (h : s.GoesRound io limit) (n : Nat) :
    s.runWithin n io limit = none := by
  obtain ⟨f, fs, m, b, hs, hcome, hround⟩ := h
  have hnone := Machine.runFor_none_of_enters hcome (Machine.runFor_round hround) n
  simp only [Shader.runWithin, hs, hnone, Option.map_none]

theorem run_isSome (h : ¬ s.GoesRound io limit) : ∃ o, s.run io limit = some o := by
  cases hs : s.functions with
  | nil => exact ⟨⟨io, some (.error .noFunction)⟩, by simp only [run, hs]⟩
  | cons f fs =>
    have hround : ∀ q, ReflTransGen (Machine.Enters ⟨s.vars, f, limit⟩)
        (.start io, entryBlock) q → ¬ TransGen (Machine.Drifts ⟨s.vars, f, limit⟩ q.1) q.2 q.2 :=
      fun q hq hcycle => h ⟨f, fs, q.1, q.2, hs, hq, hcycle⟩
    have hbound : (limit - (Machine.start io).steps) * (f.blocks.size + 1) +
        (f.blocks.size + 1 - ([] : List BlockId).length) ≤ transitionBound f limit := by
      rw [transitionBound, Nat.succ_mul]
      simp [Machine.start]
    obtain ⟨r, hr⟩ := Machine.runFor_ends hround List.nodup_nil (by simp) hbound
    exact ⟨⟨r.1.io, r.2⟩, by simp only [run, hs, hr, Option.map_some]⟩

/-- A run ends after finitely many block transitions exactly if it does not come to a round of
blocks without instructions, and the transitions it is given are enough to tell. -/
theorem run_ends_iff (s : Shader) (io : IoState) (limit : Nat) :
    ((∃ n o, s.runWithin n io limit = some o) ↔ ¬ s.GoesRound io limit) ∧
      ∀ o, s.run io limit = some o ↔ ∃ n, s.runWithin n io limit = some o := by
  have hrun : ∃ n, s.run io limit = s.runWithin n io limit := by
    cases hs : s.functions with
    | nil => exact ⟨0, by simp only [run, runWithin, hs]⟩
    | cons f fs => exact ⟨transitionBound f limit, by simp only [run, runWithin, hs]⟩
  obtain ⟨bound, hbound⟩ := hrun
  refine ⟨⟨fun hends hround => ?_, fun hround => ?_⟩, fun o => ⟨fun ho => ?_, fun hn => ?_⟩⟩
  · obtain ⟨n, o, ho⟩ := hends
    rw [hround.runWithin n] at ho
    cases ho
  · obtain ⟨o, ho⟩ := run_isSome hround
    exact ⟨bound, o, hbound ▸ ho⟩
  · exact ⟨bound, hbound ▸ ho⟩
  · obtain ⟨n, hn⟩ := hn
    have hround : ¬ s.GoesRound io limit := fun hround => by simp [hround.runWithin n] at hn
    obtain ⟨o', ho'⟩ := run_isSome hround
    have hlater := runWithin_mono (hbound ▸ ho') (Nat.le_max_left bound n)
    have hlater' := runWithin_mono hn (Nat.le_max_right bound n)
    rw [ho', ← hlater, hlater']

/-- A run of a function in which every cycle of blocks holds an instruction ends. -/
theorem run_ends_of_cycles {f : Function} {fs : List Function} (hs : s.functions = f :: fs)
    (h : ∀ b, ¬ TransGen (fun b c => f.blockInstrs b = [] ∧ c ∈ f.blocks.successors b) b b)
    (io : IoState) (limit : Nat) : ∃ o, s.run io limit = some o := by
  refine run_isSome fun ⟨f', fs', m, b, hs', _, hround⟩ => h b ?_
  obtain ⟨rfl, -⟩ := List.cons.inj (hs.symm.trans hs')
  refine TransGen.mono (fun x y hxy => ?_) b b hround
  obtain ⟨block, hblock, hnone, hnext⟩ := hxy
  simp only at hblock
  refine ⟨by simp [Function.blockInstrs, hblock, hnone], ?_⟩
  simp only [Blocks.successors, hblock]
  cases hterm : block.terminator with
  | ret => simp [hterm, Machine.next] at hnext
  | jump t =>
    obtain rfl : t = y := by simpa [hterm, Machine.next] using hnext
    simp [Terminator.successors]
  | branch v yes no =>
    simp only [hterm, Machine.next, bind_eq_ok, pure_eq_ok, Option.some.injEq] at hnext
    obtain ⟨x, -, rfl⟩ := hnext
    by_cases hx : (x.first != 0) = true <;> simp [Terminator.successors, hx]

end Shader

/-- A block that holds nothing and leads to itself. -/
def spinEdits : List Edit := [.setTerminator ⟨0⟩ (.jump ⟨0⟩)]

def spinShader : Shader := ⟨.compute, .empty, [Edit.outcome spinEdits]⟩

theorem spinShader_never_ends : (Edit.outcome spinEdits).Reached ∧
    (∀ n, spinShader.runWithin n ⟨[], [], []⟩ 10 = none) ∧
      spinShader.run ⟨[], [], []⟩ 10 = none := by
  have hround : spinShader.GoesRound ⟨[], [], []⟩ 10 :=
    ⟨Edit.outcome spinEdits, [], .start ⟨[], [], []⟩, entryBlock, rfl, .refl,
      .single ⟨⟨[], .jump ⟨0⟩, [⟨0⟩]⟩, rfl, rfl, rfl⟩⟩
  exact ⟨Function.Reached.outcome spinEdits, hround.runWithin, hround.runWithin _⟩

end ShaderSSA
