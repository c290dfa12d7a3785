import ShaderSSA.Proofs.Acceptance
import ShaderSSA.Proofs.Operations

/-! Which defects can be found. Whatever is done to a function from outside, its links stay in step
with its code, so the checker may object to the code but never to the links. -/

namespace ShaderSSA

/-- The links of the function contradict its code. -/
def Defect.isCorruption : Defect → Bool
  | danglingSource .. | staleUse .. | staleBranchUse .. | blockMismatch .. | removedLinked ..
  | badWidth .. => true
  | _ => false

namespace Checking

variable {α β : Type} {P : Defect → Prop}

/-- Every defect that the check comes back with is as `P` says. -/
def Finds (P : Defect → Prop) (x : Checking α) : Prop := ∀ d, x = .ok (.error d) → P d

theorem Finds.bind {x : Checking α} {g : α → Checking β} (hx : x.Finds P)
    (hg : ∀ a, x = .ok (.ok a) → (g a).Finds P) : (x >>= g).Finds P := by
  intro d hd
  obtain ⟨r, hr, hd⟩ := bind_eq_ok.mp (show (ExceptT.run x >>= _) = _ from hd)
  cases r with
  | error e =>
    cases hd
    exact hx d hr
  | ok a => exact hg a hr d hd

theorem Finds.pure (a : α) : (Pure.pure a : Checking α).Finds P := by
  intro d hd
  cases hd

theorem Finds.lift (x : Checked α) : (liftM x : Checking α).Finds P := by
  intro d hd
  cases x <;> cases hd

theorem Finds.require {p : Bool} {e : Defect} (h : p = false → P e) : (require p e).Finds P := by
  intro d hd
  cases p with
  | true => cases hd
  | false =>
    cases hd
    exact h rfl

theorem Finds.forM {g : α → Checking Unit} {l : List α} (h : ∀ a ∈ l, (g a).Finds P) :
    (l.forM g).Finds P := by
  induction l with
  | nil => exact .pure _
  | cons a l ih =>
    rw [List.forall_mem_cons] at h
    exact .bind h.1 fun _ _ => ih h.2

end Checking

namespace Function

open Checking

variable {f : Function} {i : InstrId} {b : BlockId} {v : ValueId} {slot : Nat}

theorem checkSource_finds (hv : f.hasValue v) :
    (f.checkSource i slot v).Finds (·.isCorruption = false) := by
  refine .bind (.require fun h => by simp [hv] at h) fun _ _ => .bind (.lift _) fun x _ => ?_
  exact .bind (.require fun _ => rfl) fun _ _ => .bind (.lift _) fun y _ => .require fun _ => rfl

theorem checkLanes_finds (o : Operand) :
    (f.checkLanes i slot o).Finds (·.isCorruption = false) := by
  refine .bind (.lift _) fun x _ => .bind (.lift _) fun n _ => .bind (.lift _) fun lanes _ => ?_
  cases lanes.find? (x.shape.width ≤ ·) with
  | none => exact .pure _
  | some lane => exact .require (p := false) fun _ => rfl

theorem checkAccess_finds (a : Access) : (checkAccess i a).Finds (·.isCorruption = false) := by
  refine .bind (.require fun _ => rfl) fun _ _ => ?_
  split
  · exact .bind (.lift _) fun mask _ => .require fun _ => rfl
  · exact .pure _

/-- Of an instruction in its block only the code can be wrong. -/
theorem checkInstr_finds (hf : f.Linked) (hi : f.home? i = some b) :
    (f.checkInstr b i).Finds (·.isCorruption = false) := by
  obtain ⟨x, hx, hr, rfl⟩ := home?_eq_some.mp hi
  refine .bind (.lift _) fun y hy => ?_
  obtain rfl : x = y := by simpa [lift_passes, instr_eq_ok, hx] using hy
  refine .bind (.require fun h => by simp [hr] at h) fun _ _ =>
    .bind (.require fun h => by simp at h) fun _ _ => .bind (.forM fun p hp => ?_) fun _ _ => ?_
  · have hp' := List.mem_of_getElem? (List.mem_zipIdx_iff_getElem?.mp hp)
    exact checkSource_finds (hf.sourced.known i x.body.srcs (by simp [srcs?, hx]) p.1 hp')
  have hbody : (f.checkBody i x.body).Finds (·.isCorruption = false) := by
    cases x.body with
    | alu a => exact .bind (.require fun _ => rfl) fun _ _ => .forM fun p _ => checkLanes_finds p.1
    | access a => exact checkAccess_finds a
    | _ => exact .pure _
  cases hd : x.dest with
  | none => exact hbody
  | some v =>
    refine .bind (.lift _) fun y hy => .bind (.require fun h => ?_) fun _ _ => hbody
    have hy' : f.values.get? v = some y := by simpa [lift_passes, value_eq_ok] using hy
    obtain ⟨h1, h4⟩ := hf.defined.width v y.shape (by simp [shape?, hy'])
    simp [maxWidth, h1, h4] at h

theorem checkBlock_finds (hf : f.Linked) (b : BlockId) :
    (f.checkBlock b).Finds (·.isCorruption = false) := by
  refine .bind (.lift _) fun x hx => .bind (.forM fun i hi => ?_) fun _ _ => ?_
  · have hx' : f.blocks.get? b = some x := by simpa [lift_passes, block_eq_ok] using hx
    exact checkInstr_finds hf (hf.placed.mem_iff.mp (by simpa [blockInstrs, hx'] using hi))
  · refine .bind (.lift _) fun y _ => ?_
    cases y.terminator.condition? with
    | none => exact .pure _
    | some v =>
      exact .bind (.require fun _ => rfl) fun _ _ =>
        .bind (.lift _) fun _ _ => .require fun _ => rfl

/-- No history leads to a function whose links contradict its code. -/
theorem Attained.check_finds_no_corruption (hf : f.Attained) {d : Defect}
    (h : f.check = .ok (.error d)) : d.isCorruption = false := by
  have hreached := hf.reached
  have hlinked := hreached.linked
  refine Finds.bind (.forM fun b _ => checkBlock_finds hlinked b) (fun _ hblocks => ?_) d h
  -- a function whose blocks pass has no instruction with more sources than can be recorded
  have hv := verified_of_blocks hlinked (forM_passes.mp hblocks)
  have htidy : f.Tidy := ⟨hreached, hv.small hlinked⟩
  refine .forM fun v hv => ?_
  rw [checkReaders_of_tidy htidy hv]
  exact .pure _

/-- A sum of more sources than can be recorded, the first of which is defined no more. -/
def crowdedSum : List Operation :=
  [.edit (.insert (.stop ⟨0⟩) (.const [1]) (some ⟨1, 32⟩)),
    .edit (.insert (.stop ⟨0⟩) (.const [2]) (some ⟨1, 32⟩)), .edit (.remove ⟨0⟩),
    .edit (.insert (.stop ⟨0⟩)
      (.alu ⟨.fadd, .whole ⟨0⟩ :: List.replicate 257 (.whole ⟨1⟩)⟩) (some ⟨1, 32⟩))]

theorem crowdedSum_no_corruption : (Operation.outcome crowdedSum).Attained ∧
    (Operation.outcome crowdedSum).check = .ok (.error (.sourceRemoved ⟨2⟩ 0 ⟨0⟩)) ∧
    (Defect.sourceRemoved ⟨2⟩ 0 ⟨0⟩).isCorruption = false := by
  have hf := Attained.outcome crowdedSum
  have hcheck : (Operation.outcome crowdedSum).check = .ok (.error (.sourceRemoved ⟨2⟩ 0 ⟨0⟩)) :=
    toOption_eq_some.mp (by decide +kernel)
  exact ⟨hf, hcheck, hf.check_finds_no_corruption hcheck⟩

end Function

end ShaderSSA
