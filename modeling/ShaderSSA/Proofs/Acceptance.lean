import ShaderSSA.Proofs.Verified

/-! The checker accepts. A function in which everything is recorded, everything read is defined and
operands fit has no defect. -/

namespace ShaderSSA

namespace Function

open Checking

variable {f : Function} {i : InstrId} {b : BlockId} {v : ValueId}

theorem Live.definition (h : f.Live v) :
    ∃ x, f.definition v = .ok x ∧ x.removed = false := by
  obtain ⟨j, b, hs, hj⟩ := h
  obtain ⟨x, hx, hr, -⟩ := home?_eq_some.mp hj
  obtain ⟨y, hy, hyj⟩ := Option.map_eq_some_iff.mp hs
  refine ⟨x, ?_, hr⟩
  simp only [Function.definition, bind_eq_ok, value_eq_ok, instr_eq_ok]
  exact ⟨y, hy, by rw [hyj, hx]⟩

theorem checkSource_of_live {slot : Nat} (hf : f.Linked) (hsmall : f.SmallAt i) (h : f.Live v)
    (hread : f.reads? ⟨i, slot⟩ = some v) : f.checkSource i slot v = .ok (.ok ()) := by
  obtain ⟨x, hx, hr⟩ := h.definition
  obtain ⟨y, hy⟩ := hasValue_iff.mp h.hasValue
  have hmem : (⟨i, slot⟩ : Use) ∈ y.uses :=
    ((hf.recordedBy i hsmall).mem_iff (by simp [uses?, hy])).mpr hread
  have hslot : Use.record i slot = ⟨i, slot⟩ := by
    obtain ⟨z, hz, -, hs⟩ := reads?_eq_some.mp hread
    obtain ⟨hlt, -⟩ := List.getElem?_eq_some_iff.mp hs
    have hlen := hsmall z.body.srcs (by simp [srcs?, hz])
    rw [Use.record, Nat.mod_eq_of_lt (lt_of_lt_of_le hlt hlen)]
  simp only [checkSource, bind_passes, require_passes, lift_passes]
  exact ⟨(), h.hasValue, x, hx, (), by simp [hr], y, value_eq_ok.mpr hy, by simp [hslot, hmem]⟩

theorem checkLanes_eq {slot : Nat} {o : Operand} {x : Instr} {a : Alu} (hf : f.Defined)
    (hx : f.instrs.get? i = some x) (ha : x.body = .alu a) {n : Nat} {shape : Shape}
    (hn : a.op.readWidth? (f.destShape? i) slot = some n) (hs : f.shape? o.value = some shape)
    (h4 : n ≤ 4) : f.checkLanes i slot o =
      match (o.swizzle.toList.take n).find? (shape.width ≤ ·) with
      | some lane => Checking.refuse (.laneOutOfRange i slot lane shape.width)
      | none => pure () := by
  obtain ⟨y, hy, rfl⟩ := Option.map_eq_some_iff.mp hs
  have hread : f.lanesRead i slot = .ok n := by
    rw [← toOption_eq_some, Machine.toOption_lanesRead slot hx ha (Machine.dest_known hf hx), hn]
  have hlanes : o.swizzle.lanes n = .ok (o.swizzle.toList.take n) := by simp [Swizzle.lanes, h4]
  exact (bind_of_passes (lift_passes.mpr (value_eq_ok.mpr hy))).trans
    ((bind_of_passes (lift_passes.mpr hread)).trans (bind_of_passes (lift_passes.mpr hlanes)))

theorem checkLanes_of_fits {slot : Nat} {o : Operand} {x : Instr} {a : Alu} (hf : f.Defined)
    (hx : f.instrs.get? i = some x) (ha : x.body = .alu a) {n : Nat} {shape : Shape}
    (hn : a.op.readWidth? (f.destShape? i) slot = some n) (hs : f.shape? o.value = some shape)
    (h4 : n ≤ 4) (hlanes : ∀ k ∈ o.swizzle.toList.take n, k < shape.width) :
    f.checkLanes i slot o = .ok (.ok ()) := by
  have hfind : (o.swizzle.toList.take n).find? (shape.width ≤ ·) = none := by
    refine List.find?_eq_none.mpr fun k hk => ?_
    have := hlanes k hk
    simp only [decide_eq_true_eq]
    omega
  rw [checkLanes_eq hf hx ha hn hs h4, hfind]
  rfl

/-- What is left to check of an instruction whose sources are defined. -/
def checkBody (f : Function) (i : InstrId) : Body → Checking Unit
  | .alu a => f.checkAlu i a
  | .access a => checkAccess i a
  | _ => pure ()

theorem checkInstr_eq {x : Instr} (hf : f.Tidy) (hx : f.instrs.get? i = some x)
    (hr : x.removed = false) (hlive : ∀ s v, f.reads? ⟨i, s⟩ = some v → f.Live v) :
    f.checkInstr x.block i = f.checkBody i x.body := by
  have hsrcs : ∀ p ∈ x.body.srcs.zipIdx, f.checkSource i p.2 p.1 = .ok (.ok ()) := by
    intro p hp
    have hread : f.reads? ⟨i, p.2⟩ = some p.1 :=
      reads?_eq_some.mpr ⟨x, hx, hr, List.mem_zipIdx_iff_getElem?.mp hp⟩
    exact checkSource_of_live hf.linked (hf.small i) (hlive _ _ hread) hread
  rw [checkInstr, bind_of_passes (lift_passes.mpr (instr_eq_ok.mpr hx)),
    bind_of_passes (a := ()) (by simp [require_passes, hr]),
    bind_of_passes (a := ()) (by simp [require_passes]),
    bind_of_passes (a := ⟨⟩) (forM_passes.mpr hsrcs)]
  cases hd : x.dest with
  | none => rfl
  | some v =>
    have hdest : f.dest? i = some v := by simp [dest?, hx, hd]
    obtain ⟨y, hy, -⟩ := Option.map_eq_some_iff.mp ((hf.linked.defined.iff i v).mp hdest)
    have hwidth := hf.linked.defined.width v y.shape (by simp [shape?, hy])
    exact (bind_of_passes (lift_passes.mpr (value_eq_ok.mpr hy))).trans
      (bind_of_passes (a := ()) (by simp [require_passes, maxWidth, hwidth]))

/-- What an instruction reads is defined, and its operands fit. -/
structure InOrder (f : Function) (i : InstrId) : Prop where
  live : ∀ s v, f.reads? ⟨i, s⟩ = some v → f.Live v
  fits : ∀ body, f.body? i = some body → f.BodyFits (f.destShape? i) body

theorem Verified.inOrder (hv : f.Verified) (hi : f.home? i = some b) : f.InOrder i :=
  ⟨fun _ _ hread => hv.closed.source _ _ hread, fun body hbody => hv.fits i b body hi hbody⟩

theorem checkInstr_of_inOrder (hf : f.Tidy) (h : f.InOrder i) (hi : f.home? i = some b) :
    f.checkInstr b i = .ok (.ok ()) := by
  obtain ⟨x, hx, hr, rfl⟩ := home?_eq_some.mp hi
  have hfits := h.fits x.body (by simp [body?, hx])
  rw [checkInstr_eq hf hx hr h.live]
  cases hb : x.body with
  | alu a =>
    rw [hb] at hfits
    simp only [checkBody, checkAlu, bind_passes, require_passes, forM_passes]
    refine ⟨(), by simpa using hfits.1, fun p hp => ?_⟩
    obtain ⟨n, shape, hn, hs, h4, hlanes⟩ := hfits.2 p.2 p.1 (List.mem_zipIdx_iff_getElem?.mp hp)
    exact checkLanes_of_fits hf.linked.defined hx hb hn hs h4 hlanes
  | access a =>
    rw [hb] at hfits
    exact checkAccess_passes.mpr hfits
  | _ => rfl

theorem checkBlock_of_inOrder (hf : f.Tidy) (hb : b ∈ f.layout)
    (hcond : ∀ v, f.condition? b = some v → f.Live v)
    (hall : ∀ i, f.home? i = some b → f.InOrder i) : f.checkBlock b = .ok (.ok ()) := by
  obtain ⟨x, hx⟩ := Arena.exists_get?_of_lt ((Arena.mem_ids _ _).mp hb)
  have hinstrs : f.blockInstrs b = x.instrs := by simp [blockInstrs, hx]
  simp only [checkBlock, bind_passes, lift_passes, block_eq_ok, forM_passes]
  refine ⟨x, hx, ⟨⟩, fun i hi => ?_, ?_⟩
  · have hhome : f.home? i = some b := hf.linked.placed.mem_iff.mp (by rwa [hinstrs])
    exact checkInstr_of_inOrder hf (hall i hhome) hhome
  · simp only [checkTerminator, bind_passes, lift_passes, block_eq_ok]
    refine ⟨x, hx, ?_⟩
    cases hc : x.terminator.condition? with
    | none => rfl
    | some v =>
      have hlive := hcond v (by simp [condition?_eq, hx, hc])
      obtain ⟨y, hy, hr⟩ := hlive.definition
      simp only [bind_passes, require_passes, lift_passes]
      exact ⟨(), hlive.hasValue, y, hy, by simp [hr]⟩

theorem checkReaders_of_tidy (hf : f.Tidy) (hv : v ∈ f.values.ids) :
    f.checkReaders v = .ok (.ok ()) := by
  obtain ⟨x, hx⟩ := Arena.exists_get?_of_lt ((Arena.mem_ids _ _).mp hv)
  have hdest := (hf.linked.defined.iff x.source v).mpr (by simp [source?, hx])
  obtain ⟨y, hy, -⟩ := Option.bind_eq_some_iff.mp hdest
  have huses : ∀ u ∈ x.uses, f.checkUse v u = .ok (.ok ()) := by
    intro u hu
    have hread : f.reads? u = some v := (hf.recorded.mem_iff (by simp [uses?, hx])).mp hu
    obtain ⟨z, hz, hr, hs⟩ := reads?_eq_some.mp hread
    simp only [checkUse, bind_passes, lift_passes, require_passes, instr_eq_ok]
    exact ⟨z, hz, by simp [hr, hs]⟩
  have hbranches : ∀ b ∈ x.branchUses, f.checkBranchUse v b = .ok (.ok ()) := by
    intro b hb
    have hc : f.condition? b = some v :=
      (hf.linked.branches.mem_iff (by simp [branches?, hx])).mp hb
    rw [condition?_eq, Option.bind_eq_some_iff] at hc
    obtain ⟨z, hz, hc⟩ := hc
    simp only [checkBranchUse, bind_passes, lift_passes, require_passes, block_eq_ok]
    exact ⟨z, hz, by simp [hc]⟩
  simp only [checkReaders, bind_passes, lift_passes, value_eq_ok, instr_eq_ok]
  refine ⟨x, hx, y, hy, ?_⟩
  cases y.removed with
  | true => rfl
  | false =>
    simp only [Bool.false_eq_true, if_false, bind_passes, forM_passes]
    exact ⟨⟨⟩, huses, hbranches⟩

theorem check_of_verified (hf : f.Tidy) (hv : f.Verified) : f.check = .ok (.ok ()) := by
  simp only [check, bind_passes, forM_passes]
  exact ⟨⟨⟩, fun b hb => checkBlock_of_inOrder hf hb (hv.closed.condition b) fun _ => hv.inOrder,
    fun v hv => checkReaders_of_tidy hf hv⟩

theorem verified_of_inOrder (hcond : ∀ c v, f.condition? c = some v → f.Live v)
    (hall : ∀ j c, f.home? j = some c → f.InOrder j) : f.Verified := by
  refine ⟨⟨fun u v hread => ?_, hcond⟩, fun j c x hj hx => (hall j c hj).fits x hx⟩
  obtain ⟨c, x, hc, -⟩ := reads?_iff.mp hread
  exact (hall u.instr c hc).live u.slot v hread

/-- Where everything else is in order, the check comes down to that of one instruction. -/
theorem check_eq_checkInstr (hf : f.Tidy) (hi : f.home? i = some b)
    (hcond : ∀ c v, f.condition? c = some v → f.Live v)
    (hothers : ∀ j c, f.home? j = some c → j ≠ i → f.InOrder j) : f.check = f.checkInstr b i := by
  have hplaced := hf.linked.placed
  have hb : b ∈ f.layout := hplaced.mem_layout hi
  have hpasses : ∀ {j c}, f.home? j = some c → j ≠ i → f.checkInstr c j = .ok (.ok ()) :=
    fun hj hne => checkInstr_of_inOrder hf (hothers _ _ hj hne) hj
  by_cases hpass : f.checkInstr b i = .ok (.ok ())
  · have horder : f.InOrder i := by
      obtain ⟨hlive, hfits⟩ := checkInstr_passes hf.linked.defined hpass
      refine ⟨fun s v hread => ?_, hfits⟩
      obtain ⟨x, hx, -, hs⟩ := reads?_eq_some.mp hread
      exact hlive x.body.srcs (by simp [srcs?, hx]) v (List.mem_of_getElem? hs)
    have hall : ∀ j c, f.home? j = some c → f.InOrder j := by
      intro j c hj
      by_cases hji : j = i
      · exact hji ▸ horder
      · exact hothers j c hj hji
    rw [hpass, check_of_verified hf (verified_of_inOrder hcond hall)]
  · obtain ⟨above, below, hlayout, habove⟩ := List.eq_append_cons_of_mem hb
    obtain ⟨done, rest, hinstrs, hdone⟩ :=
      List.eq_append_cons_of_mem (hf.linked.placed.mem_iff.mpr hi)
    have hblock : f.checkBlock b = f.checkInstr b i := by
      obtain ⟨x, hx⟩ := Arena.exists_get?_of_lt ((Arena.mem_ids _ _).mp hb)
      have hx' : f.blockInstrs b = x.instrs := by simp [blockInstrs, hx]
      have hloop : x.instrs.forM (f.checkInstr b) = f.checkInstr b i := by
        refine (forM_stops hpass).mpr ⟨done, i, rest, by rw [← hx', hinstrs], fun j hj => ?_, rfl⟩
        refine hpasses (hplaced.mem_iff.mp (by simp [hinstrs, hj])) ?_
        rintro rfl
        exact hdone hj
      rw [checkBlock, bind_of_passes (lift_passes.mpr (block_eq_ok.mpr hx)), hloop,
        bind_of_stops hpass]
    have hloop : f.layout.forM f.checkBlock = f.checkInstr b i := by
      refine (forM_stops hpass).mpr ⟨above, b, below, hlayout, fun c hc => ?_, hblock⟩
      refine checkBlock_of_inOrder hf (by simp [hlayout, hc]) (hcond c) fun j hj => ?_
      refine hothers j c hj fun heq => habove ?_
      rw [heq, hi, Option.some.injEq] at hj
      exact hj ▸ hc
    rw [check, hloop, bind_of_stops hpass]

end Function

theorem Shader.check_of_verified {s : Shader} (h : ∀ f ∈ s.functions, f.Tidy ∧ f.Verified) :
    s.check = .ok (.ok ()) :=
  Checking.forM_passes.mpr fun f hf => Function.check_of_verified (h f hf).1 (h f hf).2

end ShaderSSA
