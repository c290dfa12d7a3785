import ShaderSSA.Proofs.Reads

/-! The links of a function agree with its code after every history of edits: reads, branches,
predecessors and the places of instructions are recorded as often as they occur. -/

namespace ShaderSSA.Function

variable {f f' : Function}

/-- All links of a function. The reads of an instruction are recorded exactly when its slots fit in
eight bits. -/
structure Linked (f : Function) : Prop where
  edges : f.Edges
  branches : f.Branches
  placed : f.Placed
  defined : f.Defined
  sourced : f.Sourced
  cached : f.Cached
  recordedBy : ∀ i, f.SmallAt i → f.RecordedBy i

theorem Linked.recorded (hf : f.Linked) (hs : f.Small) : f.Recorded :=
  fun u => hf.recordedBy u.instr (hs u.instr) u.slot

theorem Linked.ofName (name : String) : (ofName name).Linked := by
  have hb : ∀ b, (Function.ofName name).blocks.get? b =
      if b = ⟨0⟩ then some Block.empty else none := by
    intro b
    simp only [Function.ofName, Arena.get?_alloc]
    simp [Arena.alloc, Arena.empty, Arena.size, Arena.get?]
  have hi : ∀ i, (Function.ofName name).instrs.get? i = none := by
    simp [Function.ofName, Arena.empty, Arena.get?]
  have hv : ∀ v, (Function.ofName name).values.get? v = none := by
    simp [Function.ofName, Arena.empty, Arena.get?]
  have hs : ∀ b, (Function.ofName name).blocks.successors b = [] := by
    intro b
    simp only [Blocks.successors, hb]
    by_cases h : b = ⟨0⟩ <;> simp [h, Block.empty, Terminator.successors]
  have hc : ∀ b, (Function.ofName name).condition? b = none := by
    intro b
    simp only [condition?_eq, hb]
    by_cases h : b = ⟨0⟩ <;> simp [h, Block.empty, Terminator.condition?]
  refine ⟨⟨?_, ?_, ?_⟩, ⟨?_, ?_⟩, ?_, ⟨?_, ?_⟩, ⟨?_, ?_, ?_⟩, ?_, ?_⟩
  · simp [Function.ofName]
  · simp [hs]
  · intro b c ps h
    simp only [preds?, hb] at h
    by_cases hc : c = ⟨0⟩
    · obtain rfl : ps = [] := by simpa [hc, Block.empty] using h.symm
      simp [hs]
    · simp [hc] at h
  · simp [hc]
  · simp [branches?, hv]
  · intro b i
    have hn : (Function.ofName name).home? i = none := by simp [home?, hi]
    simp only [blockInstrs, hb, hn]
    by_cases h : b = ⟨0⟩ <;> simp [h, Block.empty]
  · simp [dest?, source?, hi, hv]
  · simp [shape?, hv]
  · simp [srcs?, hi]
  · simp [uses?, hv]
  · simp [srcs?, hi]
  · simp [Cached, Function.ofName]
  · simp [RecordedBy, uses?, hv]

theorem Linked.change (hf : f.Linked) (h : Change f f') : f'.Linked where
  edges := hf.edges.change h
  branches := hf.branches.change h
  placed := hf.placed.change h
  defined := hf.defined.change h
  sourced := hf.sourced.change h
  cached := hf.cached.change h
  recordedBy i hs := (hf.recordedBy i (hs.of_change h)).change hf.sourced h hs

theorem Reached.linked (hf : f.Reached) : f.Linked :=
  Reached.induct Linked.ofName (fun _ _ => Linked.change) hf

theorem Small.redirect (hf : f.Small) (g : Use → ValueId → ValueId) : (f.redirect g).Small := by
  intro i vs h
  rw [srcs?_redirect] at h
  obtain ⟨ws, hws, rfl⟩ := Option.map_eq_some_iff.mp h
  rw [List.length_mapIdx]
  exact hf i ws hws

theorem Small.replaceSource {i : InstrId} {s : Nat} {v : ValueId} (hf : f.Small)
    (h : f.replaceSource i s v = .ok f') : f'.Small := by
  obtain ⟨x, old, -, -, ⟨-, rfl⟩ | ⟨-, y, us, z, -, -, -, rfl⟩⟩ := replaceSource_eq_ok.mp h
  · exact hf
  · refine Small.redirect ?_ _
    exact hf

theorem Small.modifySwizzle {i : InstrId} {s : Nat} {e : Breach} {g : Swizzle → Checked Swizzle}
    (hf : f.Small) (h : f.modifySwizzle i s e g = .ok f') : f'.Small := by
  intro j vs hvs
  rw [srcs?_modifySwizzle h] at hvs
  exact hf j vs hvs

theorem Small.insert {c : Cursor} {body : Body} {dest : Option Shape} {i : InstrId}
    (hf : f.Small) (hb : body.srcs.length ≤ 256) (h : f.insert c body dest = .ok (i, f')) :
    f'.Small := by
  obtain ⟨b, pos, -, -, -, -, -, rfl⟩ := insert_eq_ok.mp h
  intro j vs hvs
  rw [srcs?_inserted] at hvs
  split_ifs at hvs
  · obtain rfl : body.srcs = vs := by simpa using hvs
    exact hb
  · exact hf j vs hvs

theorem Small.remove {i : InstrId} (hf : f.Small) (h : f.remove i = .ok f') : f'.Small := by
  obtain ⟨x, U, -, -, -, -, rfl⟩ := remove_ok h
  intro j vs hvs
  rw [srcs?_mapInstrs] at hvs
  · exact hf j vs hvs
  · intro j z
    split <;> rfl

theorem Small.replaceUses {old new : ValueId} (hf : f.Small)
    (h : f.replaceUses old new = .ok f') : f'.Small := by
  obtain ⟨-, x, y, -, -, -, rfl⟩ := replaceUses_eq_ok.mp h
  exact hf.redirect fun u w => if u ∈ x.uses then new else w

theorem Small.apply {e : Edit} (hf : f.Small) (he : e.Small) (h : e.apply f = .ok f') :
    f'.Small := by
  cases e with
  | addBlock =>
    obtain rfl := pure_eq_ok.mp h
    exact hf
  | setTerminator b t =>
    obtain ⟨x, P, B, -, -, -, -, -, rfl⟩ := setTerminator_ok h
    exact hf
  | setCondition b v =>
    obtain ⟨x, old, y, bs, -, -, -, -, -, rfl⟩ := setCondition_eq_ok.mp h
    exact hf
  | insert c body dest =>
    obtain ⟨⟨i, g⟩, hi, h⟩ := bind_eq_ok.mp h
    obtain rfl := pure_eq_ok.mp h
    exact hf.insert he hi
  | replaceSource i slot v => exact hf.replaceSource h
  | replaceOperand i slot o =>
    obtain ⟨g, hg, h⟩ := bind_eq_ok.mp h
    exact (hf.replaceSource hg).modifySwizzle h
  | setSwizzle i slot s =>
    simp only [Edit.apply, Function.setSwizzle] at h
    exact hf.modifySwizzle h
  | replaceUses old new => exact hf.replaceUses h
  | remove i => exact hf.remove h
  | requireDominance =>
    obtain rfl := pure_eq_ok.mp h
    intro i vs hvs
    refine hf i vs ?_
    unfold requireDominance at hvs
    split at hvs <;> exact hvs
  | preserve kept =>
    obtain rfl := pure_eq_ok.mp h
    exact hf

theorem Small.applyAll {es : List Edit} (hf : f.Small) (he : ∀ e ∈ es, e.Small)
    (h : Edit.applyAll es f = .ok f') : f'.Small := by
  induction es generalizing f with
  | nil =>
    obtain rfl := pure_eq_ok.mp h
    exact hf
  | cons e es ih =>
    simp only [Edit.applyAll, List.foldlM_cons, bind_eq_ok] at h
    obtain ⟨g, hg, h⟩ := h
    exact ih (hf.apply (he e List.mem_cons_self) hg)
      (fun e hm => he e (List.mem_cons_of_mem _ hm)) h

/-- A function some history leads to, with a slot number of eight bits for every source. -/
structure Tidy (f : Function) : Prop where
  reached : f.Reached
  small : f.Small

theorem Tidy.linked (hf : f.Tidy) : f.Linked := hf.reached.linked

theorem Tidy.recorded (hf : f.Tidy) : f.Recorded := hf.linked.recorded hf.small

theorem Tidy.apply (hf : f.Tidy) {e : Edit} (he : e.Small) (h : e.apply f = .ok f') : f'.Tidy :=
  ⟨hf.reached.apply h, hf.small.apply he h⟩

/-- The records agree with the code. A read of `v` by an instruction that is not removed is listed
once at `v`, and nothing else is; a block is listed once at the value it branches on, and at no
other; the predecessors of a block are its incoming edges, each counted; and an instruction
stands once in the block it names unless it is removed. -/
structure Consistent (f : Function) : Prop where
  uses : ∀ v x, f.values.get? v = some x → ∀ i s,
    x.uses.count ⟨i, s⟩ = if f.reads? ⟨i, s⟩ = some v then 1 else 0
  branchUses : ∀ v x, f.values.get? v = some x → ∀ b,
    x.branchUses.count b = if f.condition? b = some v then 1 else 0
  preds : ∀ c x, f.blocks.get? c = some x → ∀ b,
    x.preds.count b = (f.blocks.successors b).count c
  placed : ∀ b i, (f.blockInstrs b).count i = if f.home? i = some b then 1 else 0

theorem Linked.consistent (hf : f.Linked) (hs : f.Small) : f.Consistent where
  uses v x hx i s := hf.recorded hs ⟨i, s⟩ v x.uses (by simp [uses?, hx])
  branchUses v x hx b := hf.branches.count b v x.branchUses (by simp [branches?, hx])
  preds c x hx b := hf.edges.count b c x.preds (by simp [preds?, hx])
  placed := hf.placed

/-- Every history of edits that succeed, with at most 256 sources to an instruction, leads to a
function whose records agree with its code. -/
theorem consistent_of_edits {name : String} {es : List Edit} (hs : ∀ e ∈ es, e.Small)
    (h : Edit.applyAll es (ofName name) = .ok f) : f.Consistent := by
  have hsmall : (ofName name).Small := by
    intro i vs hvs
    simp [srcs?, ofName, Arena.empty, Arena.get?] at hvs
  exact (Reached.linked ⟨name, es, h⟩).consistent (hsmall.applyAll hs h)

/-- A loop on a value that a sum reads twice: the sum is redirected and taken out, the branch
gets another condition, and both its targets are the block itself. -/
def loopEdits : List Edit :=
  [.insert (.stop ⟨0⟩) (.const [1]) (some ⟨1, 32⟩), .insert (.stop ⟨0⟩) (.const [2]) (some ⟨1, 32⟩),
    .insert (.after ⟨0⟩) (.alu ⟨.fadd, [.whole ⟨0⟩, .whole ⟨0⟩]⟩) (some ⟨1, 32⟩), .addBlock,
    .setTerminator ⟨0⟩ (.jump ⟨1⟩), .setTerminator ⟨1⟩ (.branch ⟨0⟩ ⟨1⟩ ⟨1⟩),
    .replaceOperand ⟨2⟩ 1 (.channel ⟨1⟩ 0), .setCondition ⟨1⟩ ⟨1⟩, .replaceUses ⟨1⟩ ⟨0⟩,
    .remove ⟨2⟩]

theorem consistent_loopEdits : ∃ f, Edit.applyAll loopEdits (ofName "main") = .ok f ∧
    f.Consistent := by
  have hs : ∀ e ∈ loopEdits, e.Small := by
    simp [loopEdits, Edit.Small, Body.srcs]
  have hok : (Edit.applyAll loopEdits (ofName "main")).isOk = true := by decide +kernel
  obtain ⟨f, hf⟩ := isOk_iff.mp hok
  exact ⟨f, hf, consistent_of_edits hs hf⟩

end ShaderSSA.Function
