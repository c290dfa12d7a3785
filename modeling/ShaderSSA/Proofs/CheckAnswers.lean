import ShaderSSA.Proofs.Acceptance
import ShaderSSA.Proofs.LaneWise
import ShaderSSA.Proofs.Operations

/-! When the checker has an answer. Whatever is done to a function from outside, every id that the
checker follows is known and every lane that it looks at is there. What can go wrong is the test of
a mask, which is shifted by the number of channels in eight bits. -/

namespace ShaderSSA

namespace Checking

variable {α β : Type} {x : Checking α} {e : Fault}

theorem bind_faults {g : α → Checking β} :
    (x >>= g) = .error e ↔ x = .error e ∨
      ∃ a, x = .ok (.ok a) ∧ g a = .error e := by
  change (ExceptT.bind x g : Checked (Except Defect β)) = .error e ↔ _
  unfold ExceptT.bind ExceptT.mk
  rw [bind_eq_error]
  constructor
  · rintro (h | ⟨r, hr, h⟩)
    · exact .inl h
    · cases r with
      | error d => cases h
      | ok a => exact .inr ⟨a, hr, h⟩
  · rintro (h | ⟨a, ha, h⟩)
    · exact .inl h
    · exact .inr ⟨.ok a, ha, h⟩

theorem bind_faults_of_passes {g : α → Checking β} {a : α} (hx : x = .ok (.ok a)) :
    (x >>= g) = .error e ↔ g a = .error e := by
  rw [bind_of_passes hx]

theorem lift_faults {y : Checked α} :
    (liftM y : Checking α) = .error e ↔ y = .error e := by
  change ((fun a => Except.ok a) <$> y : Checked (Except Defect α)) = .error e ↔ _
  cases y <;> simp [Functor.map, Except.map]

theorem forM_faults {g : α → Checking Unit} {l : List α} :
    l.forM g = .error e ↔ ∃ done a rest, l = done ++ a :: rest ∧
      (∀ b ∈ done, g b = .ok (.ok ())) ∧ g a = .error e := forM_stops (by simp)

/-- The check comes to an end, with or without a defect. -/
def Answers (x : Checking α) : Prop := ∀ e, x ≠ .error e

theorem Answers.bind {g : α → Checking β} (hx : x.Answers)
    (hg : ∀ a, x = .ok (.ok a) → (g a).Answers) : (x >>= g).Answers := by
  intro e h
  rcases bind_faults.mp h with h | ⟨a, ha, h⟩
  · exact hx e h
  · exact hg a ha e h

theorem Answers.bind_faults {g : α → Checking β} (hx : x.Answers) :
    (x >>= g) = .error e ↔ ∃ a, x = .ok (.ok a) ∧ g a = .error e :=
  Checking.bind_faults.trans (or_iff_right (hx e))

theorem Answers.pure (a : α) : (Pure.pure a : Checking α).Answers := by
  intro e h
  cases h

theorem Answers.lift {y : Checked α} {a : α} (h : y = .ok a) : (liftM y : Checking α).Answers := by
  subst h
  intro e h
  cases h

theorem Answers.require (p : Bool) (d : Defect) : (require p d).Answers := by
  intro e h
  cases p <;> cases h

theorem Answers.forM {g : α → Checking Unit} {l : List α} (h : ∀ a ∈ l, (g a).Answers) :
    (l.forM g).Answers := by
  intro e hl
  obtain ⟨done, a, rest, rfl, -, ha⟩ := forM_faults.mp hl
  exact h a (by simp) e ha

end Checking

theorem Checked.maskFrom_eq_error {m n : Nat} {e : Fault} :
    Checked.maskFrom m n = .error e ↔ 8 ≤ n ∧ e = .overflow := by
  unfold maskFrom
  split
  · simp
    omega
  · simp [eq_comm]
    omega

theorem AluOp.readWidth?_known (op : AluOp) {dest : Option Shape} {slot : Nat}
    (hslot : slot < op.arity) (hdest : ∀ shape ∈ dest, shape.width ≤ 4) :
    ∃ n, op.readWidth? dest slot = some n ∧ n ≤ 4 := by
  have hlen := op.length_sourceWidths
  have hwidths : ∀ n ∈ op.shape.sourceWidths, n ≤ 4 := by cases op <;> decide
  have harity := op.arity_le
  obtain ⟨n, hn⟩ : ∃ n, op.shape.sourceWidths[slot]? = some n :=
    ⟨_, List.getElem?_eq_getElem (by omega)⟩
  refine ⟨_, by rw [readWidth?, hn, Option.map_some], ?_⟩
  split
  · cases dest with
    | none => simp
    | some shape => exact hdest shape rfl
  · exact hwidths n (List.mem_of_getElem? hn)

namespace Function

open Checking

variable {f : Function} {i : InstrId} {b : BlockId} {v : ValueId} {slot : Nat} {e : Fault}

theorem definition_known (hf : f.Defined) (hv : f.hasValue v) : ∃ x, f.definition v = .ok x := by
  obtain ⟨y, hy⟩ := hasValue_iff.mp hv
  have hdest := (hf.iff y.source v).mpr (by simp [source?, hy])
  obtain ⟨x, hx, -⟩ := Option.bind_eq_some_iff.mp hdest
  refine ⟨x, ?_⟩
  simp only [definition, bind_eq_ok, value_eq_ok, instr_eq_ok]
  exact ⟨y, hy, hx⟩

theorem checkSource_answers (hf : f.Defined) (hv : f.hasValue v) :
    (f.checkSource i slot v).Answers := by
  obtain ⟨x, hx⟩ := definition_known hf hv
  obtain ⟨y, hy⟩ := hasValue_iff.mp hv
  refine .bind (.require _ _) fun _ _ => .bind (.lift hx) fun _ _ => ?_
  exact .bind (.require _ _) fun _ _ => .bind (.lift (value_eq_ok.mpr hy)) fun _ _ => .require _ _

theorem checkLanes_answers {o : Operand} {x : Instr} {a : Alu} (hf : f.Defined)
    (hx : f.instrs.get? i = some x) (ha : x.body = .alu a) (hslot : slot < a.op.arity)
    (ho : f.hasValue o.value) : (f.checkLanes i slot o).Answers := by
  obtain ⟨y, hy⟩ := hasValue_iff.mp ho
  have hdest : ∀ shape ∈ f.destShape? i, shape.width ≤ 4 := by
    intro shape hshape
    obtain ⟨v, -, hv⟩ := Option.bind_eq_some_iff.mp hshape
    exact (hf.width v shape hv).2
  obtain ⟨n, hn, h4⟩ := a.op.readWidth?_known hslot hdest
  have hread : f.lanesRead i slot = .ok n := by
    rw [← toOption_eq_some, Machine.toOption_lanesRead slot hx ha (Machine.dest_known hf hx), hn]
  have hlanes : o.swizzle.lanes n = .ok (o.swizzle.toList.take n) := by simp [Swizzle.lanes, h4]
  refine .bind (.lift (value_eq_ok.mpr hy)) fun z _ => .bind (.lift hread) fun m hm => ?_
  obtain rfl : n = m := by simpa [lift_passes, hread] using hm
  refine .bind (.lift hlanes) fun lanes _ => ?_
  cases lanes.find? (z.shape.width ≤ ·) with
  | none => exact .pure _
  | some lane => exact .require false _

theorem checkAlu_answers {x : Instr} {a : Alu} (hf : f.Linked) (hx : f.instrs.get? i = some x)
    (ha : x.body = .alu a) : (f.checkAlu i a).Answers := by
  refine .bind (.require _ _) fun _ harity => .forM fun p hp => ?_
  have hmem := List.mem_zipIdx_iff_getElem?.mp hp
  obtain ⟨hslot, -⟩ := List.getElem?_eq_some_iff.mp hmem
  have hlen : a.srcs.length = a.op.arity := by simpa [require_passes] using harity
  refine checkLanes_answers hf.defined hx ha (hlen ▸ hslot) ?_
  exact hf.sourced.known i x.body.srcs (by simp [srcs?, hx]) _
    (by rw [ha]; exact List.mem_map_of_mem (List.mem_of_getElem? hmem))

theorem checkAccess_faults {a : Access} : checkAccess i a = .error e ↔
    e = .overflow ∧ a.kind.hasWriteMask = true ∧ a.srcs.length = a.kind.arity ∧ 8 ≤ a.width := by
  constructor
  · intro h
    rcases bind_faults.mp h with h | ⟨_, harity, h⟩
    · exact absurd h (Answers.require _ _ e)
    · split at h
      · rename_i hmask
        rcases bind_faults.mp h with h | ⟨_, -, h⟩
        · obtain ⟨h8, rfl⟩ := Checked.maskFrom_eq_error.mp (lift_faults.mp h)
          exact ⟨rfl, hmask, by simpa [require_passes] using harity, h8⟩
        · exact absurd h (Answers.require _ _ e)
      · exact absurd h (Answers.pure _ e)
  · rintro ⟨rfl, hmask, harity, h8⟩
    have hshift := Checked.maskFrom_eq_error (m := a.writeMask).mpr ⟨h8, rfl⟩
    refine bind_faults.mpr (.inr ⟨(), by simpa [require_passes] using harity, ?_⟩)
    rw [if_pos hmask]
    exact bind_faults.mpr (.inl (lift_faults.mpr hshift))

/-- A store, in order otherwise, of as many channels as there are bits in a mask or more. -/
def Overshifts (f : Function) (i : InstrId) : Prop :=
  ∃ a, f.body? i = some (.access a) ∧ a.kind.hasWriteMask = true ∧
    a.srcs.length = a.kind.arity ∧ (∀ v ∈ a.srcs, f.Live v) ∧ 8 ≤ a.width

theorem checkBody_faults {x : Instr} (hf : f.Linked) (hx : f.instrs.get? i = some x) :
    (match x.body with
      | .alu a => f.checkAlu i a
      | .access a => checkAccess i a
      | _ => pure ()) = .error e ↔
    e = .overflow ∧ ∃ a, x.body = .access a ∧ a.kind.hasWriteMask = true ∧
      a.srcs.length = a.kind.arity ∧ 8 ≤ a.width := by
  cases hb : x.body with
  | alu a => simpa using checkAlu_answers hf hx hb e
  | access a => simpa using checkAccess_faults
  | _ => simpa using Answers.pure () e

theorem checkResult_faults {x : Instr} (hf : f.Linked) (hx : f.instrs.get? i = some x) :
    (do
      if let some v := x.dest then
        let width := (← f.value v).shape.width
        Checking.require (1 ≤ width && width ≤ maxWidth) (.badWidth v width)
      match x.body with
      | .alu a => f.checkAlu i a
      | .access a => checkAccess i a
      | _ => pure () : Checking Unit) = .error e ↔
    e = .overflow ∧ ∃ a, x.body = .access a ∧ a.kind.hasWriteMask = true ∧
      a.srcs.length = a.kind.arity ∧ 8 ≤ a.width := by
  cases hd : x.dest with
  | none => exact checkBody_faults hf hx
  | some v =>
    obtain ⟨y, hy⟩ := Machine.dest_known hf.defined hx v hd
    have hw := hf.defined.width v y.shape (by simp [shape?, hy])
    refine (bind_faults_of_passes (lift_passes.mpr (value_eq_ok.mpr hy))).trans ?_
    refine (bind_faults_of_passes (a := ()) (by simp [require_passes, maxWidth, hw])).trans ?_
    exact checkBody_faults hf hx

/-- An instruction in its block faults only where its mask is tested. -/
theorem checkInstr_faults (hf : f.Linked) (hi : f.home? i = some b) :
    f.checkInstr b i = .error e ↔ e = .overflow ∧ f.Overshifts i := by
  obtain ⟨x, hx, hr, rfl⟩ := home?_eq_some.mp hi
  have hbody : f.body? i = some x.body := by simp [body?, hx]
  have hsources : (x.body.srcs.zipIdx.forM fun p => f.checkSource i p.2 p.1).Answers :=
    .forM fun p hp => checkSource_answers hf.defined
      (hf.sourced.known i x.body.srcs (by simp [srcs?, hx]) p.1
        (List.mem_of_getElem? (List.mem_zipIdx_iff_getElem?.mp hp)))
  refine (bind_faults_of_passes (lift_passes.mpr (instr_eq_ok.mpr hx))).trans ?_
  refine (bind_faults_of_passes (a := ()) (by simp [require_passes, hr])).trans ?_
  refine (bind_faults_of_passes (a := ()) (by simp [require_passes])).trans ?_
  refine hsources.bind_faults.trans ⟨?_, ?_⟩
  · rintro ⟨_, hpass, h⟩
    obtain ⟨rfl, a, ha, hmask, harity, h8⟩ := (checkResult_faults hf hx).mp h
    refine ⟨rfl, a, by rw [hbody, ha], hmask, harity, fun v hv => ?_, h8⟩
    obtain ⟨s, hs⟩ := List.getElem?_of_mem hv
    rw [ha] at hpass
    exact checkSource_passes (forM_passes.mp hpass (v, s) (List.mem_zipIdx_iff_getElem?.mpr hs))
  · rintro ⟨rfl, a, ha, hmask, harity, hlive, h8⟩
    have hxa : x.body = .access a := by simpa [hbody] using ha
    have hsmall : f.SmallAt i := by
      intro vs hvs
      obtain rfl : a.srcs = vs := by simpa [srcs?, hx, hxa, Body.srcs] using hvs
      have := a.kind.arity_le
      omega
    refine ⟨(), forM_passes.mpr fun p hp => ?_,
      (checkResult_faults hf hx).mpr ⟨rfl, a, hxa, hmask, harity, h8⟩⟩
    have hmem := List.mem_zipIdx_iff_getElem?.mp hp
    refine checkSource_of_live hf hsmall (hlive p.1 ?_) (reads?_eq_some.mpr ⟨x, hx, hr, hmem⟩)
    simpa [hxa, Body.srcs] using List.mem_of_getElem? hmem

theorem checkTerminator_answers (hf : f.Linked) {x : Block} (hx : f.blocks.get? b = some x) :
    (f.checkTerminator b).Answers := by
  have hblock : f.block b = .ok x := block_eq_ok.mpr hx
  refine .bind (.lift hblock) fun y hy => ?_
  obtain rfl : x = y := by simpa [lift_passes, hblock] using hy
  cases hc : x.terminator.condition? with
  | none => exact .pure _
  | some v =>
    have hv := hf.branches.known b v (by simp [condition?_eq, hx, hc])
    obtain ⟨z, hz⟩ := definition_known hf.defined hv
    exact .bind (.require _ _) fun _ _ => .bind (.lift hz) fun _ _ => .require _ _

/-- Readers and branches that are recorded are known, even of an instruction with more sources than
can be told apart. -/
theorem checkReaders_answers (hf : f.Linked) (hv : f.hasValue v) : (f.checkReaders v).Answers := by
  obtain ⟨x, hx⟩ := hasValue_iff.mp hv
  have hvalue : f.value v = .ok x := value_eq_ok.mpr hx
  have huses : f.uses? v = some x.uses := by simp [uses?, hx]
  have hbranches : f.branches? v = some x.branchUses := by simp [branches?, hx]
  have hdest := (hf.defined.iff x.source v).mpr (by simp [source?, hx])
  obtain ⟨y, hy, -⟩ := Option.bind_eq_some_iff.mp hdest
  refine .bind (.lift hvalue) fun x' hx' => ?_
  obtain rfl : x = x' := by simpa [lift_passes, hvalue] using hx'
  refine .bind (.lift (instr_eq_ok.mpr hy)) fun y' _ => ?_
  cases y'.removed with
  | true => exact .pure _
  | false =>
    refine .bind (.forM fun u hu => ?_) fun _ _ => .forM fun c hc => ?_
    · obtain ⟨z, hz⟩ : ∃ z, f.instrs.get? u.instr = some z := by
        by_contra hnone
        have hz := Option.eq_none_iff_forall_ne_some.mpr fun z hz => hnone ⟨z, hz⟩
        have hsmall : f.SmallAt u.instr := by simp [SmallAt, srcs?, hz]
        have hread := ((hf.recordedBy u.instr hsmall).mem_iff huses).mp hu
        simp [reads?, home?, hz] at hread
      exact .bind (.lift (instr_eq_ok.mpr hz)) fun _ _ => .require _ _
    · have hcond := (hf.branches.mem_iff hbranches).mp hc
      rw [condition?_eq, Option.bind_eq_some_iff] at hcond
      obtain ⟨z, hz, -⟩ := hcond
      exact .bind (.lift (block_eq_ok.mpr hz)) fun _ _ => .require _ _

/-- The check comes to `i` in block `b` and has found nothing before it. -/
def ChecksTo (f : Function) (b : BlockId) (i : InstrId) : Prop :=
  ∃ above below done rest, f.layout = above ++ b :: below ∧
    (∀ c ∈ above, f.checkBlock c = .ok (.ok ())) ∧ f.blockInstrs b = done ++ i :: rest ∧
    ∀ j ∈ done, f.checkInstr b j = .ok (.ok ())

theorem checkBlock_faults (hf : f.Linked) (hb : b ∈ f.layout) : f.checkBlock b = .error e ↔
    e = .overflow ∧ ∃ done i rest, f.blockInstrs b = done ++ i :: rest ∧
      (∀ j ∈ done, f.checkInstr b j = .ok (.ok ())) ∧ f.Overshifts i := by
  obtain ⟨x, hx⟩ := Arena.exists_get?_of_lt ((Arena.mem_ids _ _).mp hb)
  have hblock : f.block b = .ok x := block_eq_ok.mpr hx
  have hinstrs : f.blockInstrs b = x.instrs := by simp [blockInstrs, hx]
  have hhome : ∀ done i rest, x.instrs = done ++ i :: rest → f.home? i = some b := by
    intro done i rest hsplit
    exact hf.placed.mem_iff.mp (by simp [hinstrs, hsplit])
  rw [hinstrs]
  refine (bind_faults_of_passes (lift_passes.mpr hblock)).trans ?_
  constructor
  · intro h
    rcases bind_faults.mp h with h | ⟨_, -, h⟩
    · obtain ⟨done, i, rest, hsplit, hdone, hi⟩ := forM_faults.mp h
      obtain ⟨rfl, hover⟩ := (checkInstr_faults hf (hhome done i rest hsplit)).mp hi
      exact ⟨rfl, done, i, rest, hsplit, hdone, hover⟩
    · exact absurd h (checkTerminator_answers hf hx e)
  · rintro ⟨rfl, done, i, rest, hsplit, hdone, hover⟩
    have hi := (checkInstr_faults hf (hhome done i rest hsplit)).mpr ⟨rfl, hover⟩
    exact bind_faults.mpr (.inl (forM_faults.mpr ⟨done, i, rest, hsplit, hdone, hi⟩))

theorem check_faults (hf : f.Linked) :
    f.check = .error e ↔ e = .overflow ∧ ∃ b i, f.ChecksTo b i ∧ f.Overshifts i := by
  constructor
  · intro h
    rcases bind_faults.mp h with h | ⟨_, -, h⟩
    · obtain ⟨above, b, below, hlayout, habove, hb⟩ := forM_faults.mp h
      obtain ⟨rfl, done, i, rest, hsplit, hdone, hover⟩ :=
        (checkBlock_faults hf (by simp [hlayout])).mp hb
      exact ⟨rfl, b, i, ⟨above, below, done, rest, hlayout, habove, hsplit, hdone⟩, hover⟩
    · refine absurd h (Answers.forM (fun v hv => checkReaders_answers hf ?_) e)
      exact hasValue_iff.mpr (Arena.exists_get?_of_lt ((Arena.mem_ids _ _).mp hv))
  · rintro ⟨rfl, b, i, ⟨above, below, done, rest, hlayout, habove, hsplit, hdone⟩, hover⟩
    have hb := (checkBlock_faults hf (b := b) (by simp [hlayout])).mpr
      ⟨rfl, done, i, rest, hsplit, hdone, hover⟩
    exact bind_faults.mpr (.inl (forM_faults.mpr ⟨above, b, below, hlayout, habove, hb⟩))

end Function

namespace Shader

variable {s : Shader}

/-- The check of the functions in turn comes to `i` in block `b` of `f` and has found nothing before
it. -/
def ChecksTo (s : Shader) (f : Function) (b : BlockId) (i : InstrId) : Prop :=
  ∃ above below, s.functions = above ++ f :: below ∧ (∀ g ∈ above, g.check = .ok (.ok ())) ∧
    f.ChecksTo b i

/-- The check has an answer, a defect or none, unless it comes to a store of eight channels or more
with nothing found before; then the shift of the mask overflows. -/
theorem check_answers_iff (hs : ∀ f ∈ s.functions, f.Attained) :
    ((∃ r, s.check = .ok r) ↔ ¬ ∃ f b i, s.ChecksTo f b i ∧ f.Overshifts i) ∧
      ∀ e, s.check = .error e → e = .overflow := by
  have hfaults : ∀ e, s.check = .error e ↔
      e = .overflow ∧ ∃ f b i, s.ChecksTo f b i ∧ f.Overshifts i := by
    intro e
    constructor
    · intro h
      obtain ⟨above, f, below, hsplit, habove, hf⟩ := Checking.forM_faults.mp h
      have hlinked := (hs f (by simp [hsplit])).reached.linked
      obtain ⟨rfl, b, i, hto, hover⟩ := (Function.check_faults hlinked).mp hf
      exact ⟨rfl, f, b, i, ⟨above, below, hsplit, habove, hto⟩, hover⟩
    · rintro ⟨rfl, f, b, i, ⟨above, below, hsplit, habove, hto⟩, hover⟩
      have hlinked := (hs f (by simp [hsplit])).reached.linked
      have hf := (Function.check_faults hlinked).mpr ⟨rfl, b, i, hto, hover⟩
      exact Checking.forM_faults.mpr ⟨above, f, below, hsplit, habove, hf⟩
  refine ⟨⟨?_, fun hnone => ?_⟩, fun e he => ((hfaults e).mp he).1⟩
  · rintro ⟨r, hr⟩ hover
    have herror := (hfaults .overflow).mpr ⟨rfl, hover⟩
    rw [hr] at herror
    cases herror
  · rcases hcheck : (s.check : Checked _) with e | r
    · exact absurd ((hfaults e).mp hcheck).2 hnone
    · exact ⟨r, rfl⟩

end Shader

/-- A sum with one source, and behind it a store of two hundred channels. -/
def lopsidedSum : List Operation :=
  [.edit (.insert (.stop ⟨0⟩) (.const [1]) (some ⟨1, 32⟩)),
    .edit (.insert (.stop ⟨0⟩) (.alu ⟨.fadd, [.whole ⟨0⟩]⟩) (some ⟨1, 32⟩)),
    .edit (.insert (.stop ⟨0⟩) (.access ⟨.storeOutput, 200, [⟨0⟩, ⟨0⟩], 0, 0, 1⟩) none)]

def lopsidedShader : Shader := ⟨.fragment, .empty, [Operation.outcome lopsidedSum]⟩

/-- The sum is found out before the check comes to the store. -/
theorem check_answers_lopsidedShader :
    (∀ f ∈ lopsidedShader.functions, f.Attained) ∧
      (Operation.outcome lopsidedSum).Overshifts ⟨2⟩ ∧
      lopsidedShader.check = .ok (.error (.arityMismatch ⟨1⟩ 2 1)) ∧
      ¬ ∃ f b i, lopsidedShader.ChecksTo f b i ∧ f.Overshifts i := by
  have hs : ∀ f ∈ lopsidedShader.functions, f.Attained := by
    simpa [lopsidedShader] using Function.Attained.outcome lopsidedSum
  have hover : (Operation.outcome lopsidedSum).Overshifts ⟨2⟩ :=
    ⟨_, rfl, rfl, rfl, by decide +kernel, by decide⟩
  have hcheck : lopsidedShader.check = .ok (.error (.arityMismatch ⟨1⟩ 2 1)) := rfl
  exact ⟨hs, hover, hcheck, (Shader.check_answers_iff hs).1.mp ⟨_, hcheck⟩⟩

/-- A store of eight channels that writes the first. -/
def wideStore : List Operation :=
  [.edit (.insert (.stop ⟨0⟩) (.const [1]) (some ⟨1, 32⟩)),
    .edit (.insert (.stop ⟨0⟩) (.access ⟨.storeOutput, 8, [⟨0⟩, ⟨0⟩], 0, 0, 1⟩) none)]

theorem wideStore_has_no_answer : (Operation.outcome wideStore).Attained ∧
    Shader.check ⟨.fragment, .empty, [Operation.outcome wideStore]⟩ = .error .overflow :=
  ⟨Function.Attained.outcome wideStore, rfl⟩

end ShaderSSA
