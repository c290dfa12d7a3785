import ShaderSSA.Proofs.Mapped

/-! What each edit leaves. Every statement says when the edit succeeds and gives the function
afterwards as a map over the arenas of the one before. -/

namespace ShaderSSA

/-- The records that an instruction with these sources leaves at `v`. -/
def Use.ofSources (i : InstrId) (v : ValueId) (srcs : List (ValueId × Nat)) : List Use :=
  srcs.filterMap fun p => if p.1 = v then some (.record i p.2) else none

@[simp] theorem Terminator.withCondition_withCondition (t : Terminator) (c d : ValueId) :
    (t.withCondition d).withCondition c = t.withCondition c := by
  cases t <;> rfl

@[simp] theorem Terminator.successors_withCondition (t : Terminator) (c : ValueId) :
    (t.withCondition c).successors = t.successors := by
  cases t <;> rfl

theorem swapErase?_isSome {α : Type} {p : α → Bool} {l : List α} {a : α} (ha : a ∈ l)
    (hp : p a = true) : ∃ r, swapErase? p l = some r := by
  cases h : swapErase? p l with
  | some r => exact ⟨r, rfl⟩
  | none => simp [swapErase?_eq_none_iff.mp h a ha] at hp

theorem count_swapErase_getD {α : Type} [DecidableEq α] (a p : α) (l : List α) :
    ((swapErase? (· == a) l).getD l).count p = l.count p - if p = a then 1 else 0 := by
  cases h : swapErase? (· == a) l with
  | none =>
    have hn : a ∉ l := fun hm => by simpa using swapErase?_eq_none_iff.mp h a hm
    by_cases hp : p = a
    · subst hp
      simp [List.count_eq_zero_of_not_mem hn]
    · simp [hp]
  | some r =>
    obtain ⟨x, hx, hperm⟩ := swapErase?_perm h
    have he : x = a := by simpa using hx
    subst he
    rw [hperm.count_eq]
    by_cases hp : p = x
    · simp [hp]
    · simp [hp, Ne.symm hp]

namespace Function

variable {f f' : Function}

@[simp] theorem instr_eq_ok {i : InstrId} {x : Instr} :
    f.instr i = .ok x ↔ f.instrs.get? i = some x := by
  simp [instr]

@[simp] theorem value_eq_ok {v : ValueId} {x : Value} :
    f.value v = .ok x ↔ f.values.get? v = some x := by
  simp [value]

@[simp] theorem block_eq_ok {b : BlockId} {x : Block} :
    f.block b = .ok x ↔ f.blocks.get? b = some x := by
  simp [block]

theorem addUse_eq_ok {v : ValueId} {u : Use} :
    f.addUse v u = .ok f' ↔ (∃ x, f.values.get? v = some x) ∧
      f' = f.mapValues fun w x => if w = v then { x with uses := x.uses ++ [u] } else x := by
  simp only [addUse, bind_eq_ok, value_eq_ok, pure_eq_ok, modifyValue_eq]
  constructor
  · rintro ⟨x, hx, rfl⟩
    exact ⟨⟨x, hx⟩, rfl⟩
  · rintro ⟨⟨x, hx⟩, rfl⟩
    exact ⟨x, hx, rfl⟩

theorem dropUse_eq_ok {v : ValueId} {i : InstrId} {s : Nat} :
    f.dropUse v i s = .ok f' ↔ ∃ x uses, f.values.get? v = some x ∧
      swapErase? (· == (⟨i, s⟩ : Use)) x.uses = some uses ∧
      f' = f.mapValues fun w x => if w = v then { x with uses } else x := by
  simp only [dropUse, bind_eq_ok, value_eq_ok, pure_eq_ok, modifyValue_eq, Checked.orElse_eq_ok]
  constructor
  · rintro ⟨x, hx, uses, hu, rfl⟩
    exact ⟨x, uses, hx, hu, rfl⟩
  · rintro ⟨x, uses, hx, hu, rfl⟩
    exact ⟨x, hx, uses, hu, rfl⟩

theorem addBranchUse_eq_ok {v : ValueId} {b : BlockId} :
    f.addBranchUse v b = .ok f' ↔ (∃ x, f.values.get? v = some x) ∧
      f' = f.mapValues fun w x =>
        if w = v then { x with branchUses := x.branchUses ++ [b] } else x := by
  simp only [addBranchUse, bind_eq_ok, value_eq_ok, pure_eq_ok, modifyValue_eq]
  constructor
  · rintro ⟨x, hx, rfl⟩
    exact ⟨⟨x, hx⟩, rfl⟩
  · rintro ⟨⟨x, hx⟩, rfl⟩
    exact ⟨x, hx, rfl⟩

theorem dropBranchUse_eq_ok {v : ValueId} {b : BlockId} :
    f.dropBranchUse v b = .ok f' ↔ ∃ x branchUses, f.values.get? v = some x ∧
      swapErase? (· == b) x.branchUses = some branchUses ∧
      f' = f.mapValues fun w x => if w = v then { x with branchUses } else x := by
  simp only [dropBranchUse, bind_eq_ok, value_eq_ok, pure_eq_ok, modifyValue_eq,
    Checked.orElse_eq_ok]
  constructor
  · rintro ⟨x, hx, uses, hu, rfl⟩
    exact ⟨x, uses, hx, hu, rfl⟩
  · rintro ⟨x, uses, hx, hu, rfl⟩
    exact ⟨x, hx, uses, hu, rfl⟩

theorem addPred_eq_ok {b p : BlockId} :
    f.addPred b p = .ok f' ↔ (∃ x, f.blocks.get? b = some x) ∧
      f' = f.mapBlocks fun c x => if c = b then { x with preds := x.preds ++ [p] } else x := by
  simp only [addPred, bind_eq_ok, block_eq_ok, pure_eq_ok, modifyBlock_eq]
  constructor
  · rintro ⟨x, hx, rfl⟩
    exact ⟨⟨x, hx⟩, rfl⟩
  · rintro ⟨⟨x, hx⟩, rfl⟩
    exact ⟨x, hx, rfl⟩

theorem dropPred_eq_ok {b p : BlockId} :
    f.dropPred b p = .ok f' ↔ ∃ x, f.blocks.get? b = some x ∧
      f' = f.mapBlocks fun c y =>
        if c = b then { y with preds := (swapErase? (· == p) x.preds).getD x.preds } else y := by
  simp only [dropPred, bind_eq_ok, block_eq_ok, pure_eq_ok, modifyBlock_eq]
  constructor
  · rintro ⟨x, hx, rfl⟩
    exact ⟨x, hx, rfl⟩
  · rintro ⟨x, hx, rfl⟩
    exact ⟨x, hx, rfl⟩

@[simp] theorem hasValue_mapValues (f : Function) (g : ValueId → Value → Value) (v : ValueId) :
    (f.mapValues g).hasValue v = f.hasValue v := by
  simp [mapValues, hasValue]

theorem linkAll_eq_ok {i : InstrId} {ps : List (ValueId × Nat)} :
    ps.foldlM (fun f (v, slot) => do
      Checked.require (f.hasValue v) (.unknownSource slot v)
      f.addUse v (.record i slot)) f = .ok f' ↔
    (∀ p ∈ ps, f.hasValue p.1) ∧
      f' = f.mapValues fun w x => { x with uses := x.uses ++ Use.ofSources i w ps } := by
  induction ps generalizing f with
  | nil =>
    simp only [List.foldlM_nil, pure_eq_ok, Use.ofSources, List.filterMap_nil, List.append_nil,
      mapValues_id]
    exact ⟨fun h => ⟨by simp, h.symm⟩, fun h => h.2.symm⟩
  | cons p ps ih =>
    have hm : ∀ w, Use.ofSources i w (p :: ps) =
        (if w = p.1 then [.record i p.2] else []) ++ Use.ofSources i w ps := by
      intro w
      by_cases h : p.1 = w
      · simp [Use.ofSources, h]
      · simp [Use.ofSources, h, Ne.symm h]
    simp only [List.foldlM_cons, bind_eq_ok, addUse_eq_ok, Checked.require_eq_ok]
    constructor
    · rintro ⟨g, ⟨u, hv, hx, rfl⟩, h⟩
      obtain ⟨hp, rfl⟩ := ih.mp h
      simp only [hasValue_mapValues] at hp
      refine ⟨by simpa using ⟨hv, fun a b => hp (a, b)⟩, ?_⟩
      rw [mapValues_mapValues]
      congr 1
      funext w x
      rw [hm]
      split <;> simp
    · rintro ⟨hp, rfl⟩
      have hv := hp p (by simp)
      refine ⟨_, ⟨(), hv, Option.isSome_iff_exists.mp hv, rfl⟩, ih.mpr ⟨?_, ?_⟩⟩
      · intro q hq
        simpa using hp q (by simp [hq])
      · rw [mapValues_mapValues]
        congr 1
        funext w x
        rw [hm]
        split <;> simp

theorem linkSources_eq_ok {i : InstrId} {srcs : List ValueId} :
    f.linkSources i srcs = .ok f' ↔ (∀ v ∈ srcs, f.hasValue v) ∧
      f' = f.mapValues fun w x => { x with uses := x.uses ++ Use.ofSources i w srcs.zipIdx } := by
  rw [linkSources, linkAll_eq_ok]
  refine and_congr_left fun _ => ⟨fun h v hv => ?_, fun h p hp => h p.1 ?_⟩
  · obtain ⟨s, hs, rfl⟩ := List.mem_iff_getElem.mp hv
    exact h (srcs[s], s) (by simp [List.mem_zipIdx_iff_getElem?])
  · exact List.mem_of_getElem? (List.mem_zipIdx_iff_getElem?.mp hp)


theorem allocDest_eq_ok {i : InstrId} {shape : Shape} :
    f.allocDest i shape = .ok f' ↔ (1 ≤ shape.width ∧ shape.width ≤ 4) ∧
      f' = { f with
        values := (f.values.alloc ⟨i, shape, [], []⟩).2
        instrs := f.instrs.modify i fun x => { x with dest := some ⟨f.values.size⟩ } } := by
  simp only [allocDest, bind_eq_ok, Checked.require_eq_ok, Bool.and_eq_true, decide_eq_true_eq]
  constructor
  · rintro ⟨_, hw, h⟩
    exact ⟨hw, (pure_eq_ok.mp h).symm⟩
  · rintro ⟨hw, rfl⟩
    exact ⟨(), hw, rfl⟩

/-- The values once a new instruction `i` with these sources is linked and has its destination. -/
def insertedValues (f : Function) (i : InstrId) (srcs : List ValueId) (dest : Option Shape) :
    Arena .value Value :=
  let values := f.values.mapIds fun w x =>
    { x with uses := x.uses ++ Use.ofSources i w srcs.zipIdx }
  dest.elim values fun shape => (values.alloc ⟨i, shape, [], []⟩).2

/-- The function with a new instruction at a position of a block. -/
def inserted (f : Function) (b : BlockId) (pos : Nat) (body : Body) (dest : Option Shape) :
    Function :=
  let i : InstrId := ⟨f.instrs.size⟩
  { f with
    instrs := (f.instrs.alloc ⟨body, b, dest.map fun _ => ⟨f.values.size⟩, false⟩).2
    values := f.insertedValues i body.srcs dest
    blocks := f.blocks.mapIds fun c x =>
      if c = b then { x with instrs := x.instrs.insertIdx pos i } else x }

theorem insert_eq_ok {c : Cursor} {body : Body} {dest : Option Shape} {i : InstrId} :
    f.insert c body dest = .ok (i, f') ↔ ∃ b pos, f.resolve c = .ok (b, pos) ∧
      (∀ v ∈ body.srcs, f.hasValue v) ∧
      (∀ shape, dest = some shape → 1 ≤ shape.width ∧ shape.width ≤ 4) ∧
      (∃ x, f.blocks.get? b = some x) ∧ i = ⟨f.instrs.size⟩ ∧ f' = f.inserted b pos body dest := by
  simp only [insert, bind_eq_ok, linkSources_eq_ok, Prod.exists, block_eq_ok, pure_eq_ok,
    Prod.mk.injEq]
  refine exists_congr fun b => exists_congr fun pos => and_congr_right fun _ => ?_
  cases dest with
  | none =>
    simp only [Option.elim, pure_eq_ok, inserted, insertedValues, modifyBlock_eq, mapBlocks]
    constructor
    · rintro ⟨g, ⟨hv, rfl⟩, k, rfl, x, hx, rfl, rfl⟩
      exact ⟨hv, by simp, ⟨x, hx⟩, rfl, rfl⟩
    · rintro ⟨hv, _, ⟨x, hx⟩, rfl, rfl⟩
      exact ⟨_, ⟨hv, rfl⟩, _, rfl, x, hx, rfl, rfl⟩
  | some shape =>
    simp only [Option.elim, allocDest_eq_ok, inserted, insertedValues, modifyBlock_eq, mapBlocks,
      Option.some.injEq, forall_eq']
    constructor
    · rintro ⟨g, ⟨hv, rfl⟩, k, ⟨hw, rfl⟩, x, hx, rfl, rfl⟩
      refine ⟨hv, hw, ⟨x, hx⟩, rfl, ?_⟩
      simp only [mapValues, Arena.size_mapIds, Arena.modify_alloc]
      rfl
    · rintro ⟨hv, hw, ⟨x, hx⟩, rfl, rfl⟩
      refine ⟨_, ⟨hv, rfl⟩, _, ⟨hw, rfl⟩, x, hx, rfl, ?_⟩
      simp only [mapValues, Arena.size_mapIds, Arena.modify_alloc]
      rfl

theorem setSource_eq_ok {i : InstrId} {s : Nat} {v : ValueId} :
    f.setSource i s v = .ok f' ↔ (∃ x, f.instrs.get? i = some x ∧ s < x.body.srcs.length) ∧
      f' = f.redirect fun u w => if u = ⟨i, s⟩ then v else w := by
  have he : ∀ x, f.instrs.get? i = some x →
      f.modifyInstr i (fun y => { y with body := x.body.mapSrcs fun k w => if k = s then v else w })
        = f.redirect fun u w => if u = ⟨i, s⟩ then v else w := by
    intro x hx
    rw [modifyInstr_eq]
    refine mapInstrs_congr fun j y hy => ?_
    by_cases hj : j = i
    · subst hj
      rw [hx] at hy
      cases hy
      simp
    · simp [hj, Body.mapSrcs_id]
  simp only [setSource, bind_eq_ok, instr_eq_ok, Body.setSrc_eq_ok, pure_eq_ok]
  constructor
  · rintro ⟨x, hx, b, ⟨hs, rfl⟩, rfl⟩
    exact ⟨⟨x, hx, hs⟩, he x hx⟩
  · rintro ⟨⟨x, hx, hs⟩, rfl⟩
    exact ⟨x, hx, _, ⟨hs, rfl⟩, he x hx⟩

theorem setSources_eq_ok {us : List Use} {v : ValueId} :
    us.foldlM (fun f u => f.setSource u.instr u.slot v) f = .ok f' ↔
      (∀ u ∈ us, ∃ x, f.instrs.get? u.instr = some x ∧ u.slot < x.body.srcs.length) ∧
      f' = f.redirect fun u w => if u ∈ us then v else w := by
  induction us generalizing f with
  | nil =>
    simp only [List.foldlM_nil, pure_eq_ok, List.not_mem_nil, if_false, redirect_id]
    exact ⟨fun h => ⟨by simp, h.symm⟩, fun h => h.2.symm⟩
  | cons u us ih =>
    have hm : ∀ g : Function,
        (g.redirect fun w x => if w = ⟨u.instr, u.slot⟩ then v else x).redirect
          (fun w x => if w ∈ us then v else x) =
        g.redirect fun w x => if w ∈ u :: us then v else x := by
      intro g
      rw [redirect_redirect]
      congr 1
      funext w x
      by_cases hw : w = u <;> simp [hw]
    have hk : ∀ g (w : Use), (∃ x, (f.redirect g).instrs.get? w.instr = some x ∧
        w.slot < x.body.srcs.length) ↔
        ∃ x, f.instrs.get? w.instr = some x ∧ w.slot < x.body.srcs.length := by
      intro g w
      rw [get?_instrs_redirect]
      cases f.instrs.get? w.instr <;> simp
    simp only [List.foldlM_cons, bind_eq_ok, setSource_eq_ok]
    constructor
    · rintro ⟨g, ⟨hu, rfl⟩, h⟩
      obtain ⟨hus, rfl⟩ := ih.mp h
      exact ⟨List.forall_mem_cons.mpr ⟨hu, fun w hw => (hk _ w).mp (hus w hw)⟩, hm f⟩
    · rintro ⟨hus, rfl⟩
      exact ⟨_, ⟨hus u (by simp), rfl⟩,
        ih.mpr ⟨fun w hw => (hk _ w).mpr (hus w (by simp [hw])), (hm f).symm⟩⟩

theorem replaceSource_eq_ok {i : InstrId} {s : Nat} {v : ValueId} :
    f.replaceSource i s v = .ok f' ↔ ∃ x old,
      f.instrs.get? i = some x ∧ x.body.srcs[s]? = some old ∧
      ((old = v ∧ f' = f) ∨ (old ≠ v ∧ ∃ y uses z, f.values.get? old = some y ∧
        swapErase? (· == (⟨i, s⟩ : Use)) y.uses = some uses ∧ f.values.get? v = some z ∧
        f' = (f.mapValues fun w x => if w = old then { x with uses } else
            if w = v then { x with uses := x.uses ++ [.record i s] } else x).redirect
          fun u w => if u = ⟨i, s⟩ then v else w)) := by
  simp only [replaceSource, bind_eq_ok, instr_eq_ok, Body.src_eq_ok]
  refine ⟨?_, ?_⟩
  · rintro ⟨x, hx, old, ho, h⟩
    refine ⟨x, old, hx, ho, ?_⟩
    by_cases he : old = v
    · simp only [he, if_true, pure_eq_ok] at h
      exact .inl ⟨he, h.symm⟩
    · simp only [he, if_false, bind_eq_ok, dropUse_eq_ok, addUse_eq_ok, setSource_eq_ok] at h
      obtain ⟨_, ⟨y, uses, hy, hu, rfl⟩, _, ⟨⟨z, hz⟩, rfl⟩, _, rfl⟩ := h
      have hz : f.values.get? v = some z := by simpa [mapValues, Ne.symm he] using hz
      refine .inr ⟨he, y, uses, z, hy, hu, hz, ?_⟩
      rw [mapValues_mapValues]
      congr 2
      funext w x
      by_cases hw : w = old
      · simp [hw, he]
      · simp [hw]
  · rintro ⟨x, old, hx, ho, h⟩
    refine ⟨x, hx, old, ho, ?_⟩
    rcases h with ⟨rfl, rfl⟩ | ⟨he, y, uses, z, hy, hu, hz, rfl⟩
    · simp
    · simp only [he, if_false, bind_eq_ok, dropUse_eq_ok, addUse_eq_ok, setSource_eq_ok]
      refine ⟨_, ⟨y, uses, hy, hu, rfl⟩, _, ⟨?_, rfl⟩, ⟨x, hx, ?_⟩, ?_⟩
      · exact ⟨z, by simp [mapValues, hz, Ne.symm he]⟩
      · exact (List.getElem?_eq_some_iff.mp ho).1
      · rw [mapValues_mapValues]
        congr 2
        funext w x
        by_cases hw : w = old
        · simp [hw, he]
        · simp [hw]

theorem modifySwizzle_eq_ok {i : InstrId} {s : Nat} {e : Breach} {g : Swizzle → Checked Swizzle} :
    f.modifySwizzle i s e g = .ok f' ↔ ∃ x a o w, f.instrs.get? i = some x ∧ x.body = .alu a ∧
      a.srcs[s]? = some o ∧ g o.swizzle = .ok w ∧
      f' = f.mapInstrs fun j x => if j = i then
        { x with body := .alu { a with srcs := a.srcs.modify s fun o => { o with swizzle := w } } }
        else x := by
  simp only [modifySwizzle, bind_eq_ok, instr_eq_ok, Checked.orElse_eq_ok, Checked.inBounds_eq_ok,
    pure_eq_ok, modifyInstr_eq]
  constructor
  · rintro ⟨x, hx, a, ha, o, ho, w, hw, rfl⟩
    refine ⟨x, a, o, w, hx, ?_, ho, hw, rfl⟩
    cases hb : x.body <;> simp_all [Body.alu?]
  · rintro ⟨x, a, o, w, hx, ha, ho, hw, rfl⟩
    exact ⟨x, hx, a, by simp [ha, Body.alu?], o, ho, w, hw, rfl⟩

theorem setConditions_eq (f : Function) (bs : List BlockId) (v : ValueId) :
    bs.foldl (fun f b => f.modifyBlock b fun x =>
      { x with terminator := x.terminator.withCondition v }) f =
    f.mapBlocks fun b x =>
      if b ∈ bs then { x with terminator := x.terminator.withCondition v } else x := by
  induction bs generalizing f with
  | nil => simp
  | cons b bs ih =>
    rw [List.foldl_cons, ih, modifyBlock_eq, mapBlocks_mapBlocks]
    congr 1
    funext c x
    by_cases hc : c = b <;> by_cases hm : c ∈ bs <;> simp [hc, hm]

theorem replaceUses_eq_ok {old new : ValueId} :
    f.replaceUses old new = .ok f' ↔ old ≠ new ∧ ∃ x y, f.values.get? old = some x ∧
      f.values.get? new = some y ∧
      (∀ u ∈ x.uses, ∃ z, f.instrs.get? u.instr = some z ∧ u.slot < z.body.srcs.length) ∧
      f' = ((f.redirect fun u w => if u ∈ x.uses then new else w).mapBlocks
          fun b z => if b ∈ x.branchUses then
            { z with terminator := z.terminator.withCondition new } else z).mapValues
          fun w z => if w = old then { z with uses := [], branchUses := [] }
            else if w = new then { z with
              uses := z.uses ++ x.uses, branchUses := z.branchUses ++ x.branchUses } else z := by
  simp only [replaceUses, bind_eq_ok, Checked.require_eq_ok, value_eq_ok, setSources_eq_ok,
    pure_eq_ok, modifyValue_eq, setConditions_eq, bne_iff_ne]
  constructor
  · rintro ⟨_, hne, x, hx, _, ⟨hu, rfl⟩, y, hy, z, hz, rfl⟩
    have hy : f.values.get? new = some y := by
      simpa [redirect, mapInstrs, mapValues, Ne.symm hne] using hy
    have hz : z = { x with uses := [] } := by
      simpa [redirect, mapInstrs, mapValues, hne, hx, eq_comm] using hz
    subst hz
    refine ⟨hne, x, y, hx, hy, hu, ?_⟩
    simp only [redirect, mapValues, mapInstrs, mapBlocks, Arena.mapIds_mapIds]
    congr 2
    funext w z
    by_cases hw : w = old
    · simp [hw, hne]
    · simp [hw]
      by_cases hw : w = new <;> simp [hw]
  · rintro ⟨hne, x, y, hx, hy, hu, rfl⟩
    refine ⟨(), hne, x, hx, _, ⟨hu, rfl⟩, y, ?_, { x with uses := [] }, ?_, ?_⟩
    · simpa [redirect, mapInstrs, mapValues, Ne.symm hne] using hy
    · simp [redirect, mapInstrs, mapValues, hne, hx]
    · simp only [redirect, mapValues, mapInstrs, mapBlocks, Arena.mapIds_mapIds]
      congr 2
      funext w z
      by_cases hw : w = old
      · simp [hw, hne]
      · simp [hw]
        by_cases hw : w = new <;> simp [hw]

theorem dropUses_ok {i : InstrId} {ps : List (ValueId × Nat)}
    (h : ps.foldlM (fun f (v, slot) => f.dropUse v i slot) f = .ok f') :
    ∃ U : ValueId → List Use, f' = f.mapValues (fun w x => { x with uses := U w }) ∧
      ∀ w x, f.values.get? w = some x →
        x.uses.Perm (U w ++ ps.filterMap fun p => if p.1 = w then some ⟨i, p.2⟩ else none) := by
  induction ps generalizing f with
  | nil =>
    simp only [List.foldlM_nil, pure_eq_ok] at h
    subst h
    refine ⟨fun w => (f.values.get? w).elim [] (·.uses), ?_, fun w x hx => by simp [hx]⟩
    conv_lhs => rw [← mapValues_id f]
    exact mapValues_congr fun w x hx => by simp [hx]
  | cons p ps ih =>
    simp only [List.foldlM_cons, bind_eq_ok, dropUse_eq_ok] at h
    obtain ⟨_, ⟨y, uses, hy, hu, rfl⟩, h⟩ := h
    obtain ⟨U, rfl, hU⟩ := ih h
    refine ⟨U, ?_, ?_⟩
    · rw [mapValues_mapValues]
      congr 1
      funext w x
      by_cases hw : w = p.1 <;> simp [hw]
    · intro w x hx
      by_cases hw : w = p.1
      · subst hw
        rw [hy] at hx
        cases hx
        obtain ⟨u, hp, hperm⟩ := swapErase?_perm hu
        have he : u = ⟨i, p.2⟩ := by simpa using hp
        subst he
        have := hU p.1 { y with uses } (by simp [mapValues, hy])
        simp only [List.filterMap_cons, if_true]
        exact hperm.trans ((this.cons _).trans List.perm_middle.symm)
      · have := hU w x (by simp [mapValues, hx, hw])
        simpa [List.filterMap_cons, Ne.symm hw] using this

theorem dropUses_isOk {i : InstrId} {ps : List (ValueId × Nat)} (hnd : (ps.map (·.2)).Nodup)
    (h : ∀ p ∈ ps, ∃ x, f.values.get? p.1 = some x ∧ (⟨i, p.2⟩ : Use) ∈ x.uses) :
    ∃ f', ps.foldlM (fun f (v, slot) => f.dropUse v i slot) f = .ok f' := by
  induction ps generalizing f with
  | nil => exact ⟨f, rfl⟩
  | cons p ps ih =>
    obtain ⟨x, hx, hm⟩ := h p (by simp)
    obtain ⟨uses, hu⟩ := swapErase?_isSome (p := (· == (⟨i, p.2⟩ : Use))) hm (by simp)
    have hnd' := List.nodup_cons.mp hnd
    obtain ⟨f', hf⟩ := ih (f := f.mapValues fun w x => if w = p.1 then { x with uses } else x)
      hnd'.2 (by
        intro q hq
        obtain ⟨y, hy, hm'⟩ := h q (by simp [hq])
        by_cases he : q.1 = p.1
        · rw [he, hx] at hy
          cases hy
          refine ⟨{ x with uses }, by simp [mapValues, he, hx], ?_⟩
          obtain ⟨u, hp, hperm⟩ := swapErase?_perm hu
          have hu' : u = ⟨i, p.2⟩ := by simpa using hp
          subst hu'
          rcases List.mem_cons.mp (hperm.mem_iff.mp hm') with hh | hh
          · have : q.2 = p.2 := by simpa using hh
            exact absurd (List.mem_map.mpr ⟨q, hq, this⟩) hnd'.1
          · exact hh
        · exact ⟨y, by simp [mapValues, he, hy], hm'⟩)
    exact ⟨f', by
      simp only [List.foldlM_cons, bind_eq_ok]
      exact ⟨_, dropUse_eq_ok.mpr ⟨x, uses, hx, hu, rfl⟩, hf⟩⟩

theorem remove_eq_ok {i : InstrId} :
    f.remove i = .ok f' ↔ ∃ x g, f.instrs.get? i = some x ∧ x.removed = false ∧
      (∀ v, x.dest = some v → ∃ y, f.values.get? v = some y ∧ y.isRead = false) ∧
      x.body.srcs.zipIdx.foldlM (fun f (v, slot) => f.dropUse v i slot) f = .ok g ∧
      f' = (g.mapBlocks fun b y =>
          if b = x.block then { y with instrs := y.instrs.erase i } else y).mapInstrs
        fun j y => if j = i then { y with removed := true } else y := by
  simp only [remove, bind_eq_ok, instr_eq_ok, Checked.require_eq_ok, Bool.not_eq_true',
    modifyBlock_eq, modifyInstr_eq]
  constructor
  · rintro ⟨x, hx, _, hr, h⟩
    cases hd : x.dest with
    | none =>
      simp only [hd, bind_eq_ok, pure_eq_ok] at h
      obtain ⟨g, hg, rfl⟩ := h
      exact ⟨x, g, hx, hr, by simp [hd], hg, rfl⟩
    | some v =>
      simp only [hd, bind_eq_ok, pure_eq_ok, value_eq_ok, Checked.require_eq_ok,
        Bool.not_eq_true'] at h
      obtain ⟨y, hy, _, hu, g, hg, rfl⟩ := h
      exact ⟨x, g, hx, hr, by simpa [hd] using ⟨y, hy, hu⟩, hg, rfl⟩
  · rintro ⟨x, g, hx, hr, hd, hg, rfl⟩
    refine ⟨x, hx, (), hr, ?_⟩
    cases he : x.dest with
    | none =>
      simp only [bind_eq_ok, pure_eq_ok]
      exact ⟨g, hg, rfl⟩
    | some v =>
      obtain ⟨y, hy, hu⟩ := hd v he
      simp only [bind_eq_ok, pure_eq_ok, value_eq_ok, Checked.require_eq_ok, Bool.not_eq_true']
      exact ⟨y, hy, (), hu, g, hg, rfl⟩

theorem remove_ok {i : InstrId} (h : f.remove i = .ok f') :
    ∃ (x : Instr) (U : ValueId → List Use), f.instrs.get? i = some x ∧ x.removed = false ∧
      (∀ v, x.dest = some v → ∃ y, f.values.get? v = some y ∧ y.isRead = false) ∧
      (∀ w y, f.values.get? w = some y → y.uses.Perm
        (U w ++ x.body.srcs.zipIdx.filterMap fun p => if p.1 = w then some ⟨i, p.2⟩ else none)) ∧
      f' = ((f.mapValues fun w y => { y with uses := U w }).mapBlocks fun b y =>
          if b = x.block then { y with instrs := y.instrs.erase i } else y).mapInstrs
        fun j y => if j = i then { y with removed := true } else y := by
  obtain ⟨x, g, hx, hr, hd, hg, rfl⟩ := remove_eq_ok.mp h
  obtain ⟨U, rfl, hU⟩ := dropUses_ok hg
  exact ⟨x, U, hx, hr, hd, hU, rfl⟩

theorem remove_isOk {i : InstrId} {x : Instr} (hx : f.instrs.get? i = some x)
    (hr : x.removed = false)
    (hd : ∀ v, x.dest = some v → ∃ y, f.values.get? v = some y ∧ y.isRead = false)
    (hs : ∀ s v, x.body.srcs[s]? = some v →
      ∃ y, f.values.get? v = some y ∧ (⟨i, s⟩ : Use) ∈ y.uses) :
    ∃ f', f.remove i = .ok f' := by
  have hnd : (x.body.srcs.zipIdx.map (·.2)).Nodup := by simp [List.nodup_range']
  obtain ⟨g, hg⟩ := dropUses_isOk hnd
    fun p hp => hs p.2 p.1 (List.mem_zipIdx_iff_getElem?.mp hp)
  exact ⟨_, remove_eq_ok.mpr ⟨x, g, hx, hr, hd, hg, rfl⟩⟩

theorem setCondition_eq_ok {b : BlockId} {v : ValueId} :
    f.setCondition b v = .ok f' ↔ ∃ x old y branchUses, f.blocks.get? b = some x ∧
      x.terminator.condition? = some old ∧ f.values.get? old = some y ∧
      swapErase? (· == b) y.branchUses = some branchUses ∧ (∃ z, f.values.get? v = some z) ∧
      f' = ((f.mapValues fun w z => if w = old then { z with branchUses } else z).mapValues
          fun w z => if w = v then { z with branchUses := z.branchUses ++ [b] } else z).mapBlocks
        fun c z => if c = b then { z with terminator := x.terminator.withCondition v } else z := by
  simp only [setCondition, bind_eq_ok, block_eq_ok, Checked.orElse_eq_ok, dropBranchUse_eq_ok,
    addBranchUse_eq_ok, pure_eq_ok, modifyBlock_eq]
  constructor
  · rintro ⟨x, hx, old, ho, _, ⟨y, bs, hy, hb, rfl⟩, _, ⟨⟨z, hz⟩, rfl⟩, rfl⟩
    refine ⟨x, old, y, bs, hx, ho, hy, hb, ?_, rfl⟩
    rw [← Option.isSome_iff_exists]
    simpa [mapValues] using Option.isSome_of_eq_some hz
  · rintro ⟨x, old, y, bs, hx, ho, hy, hb, ⟨z, hz⟩, rfl⟩
    refine ⟨x, hx, old, ho, _, ⟨y, bs, hy, hb, rfl⟩, _, ⟨?_, rfl⟩, rfl⟩
    rw [← Option.isSome_iff_exists]
    simpa [mapValues] using Option.isSome_of_eq_some hz

theorem dropPreds_ok {ss : List BlockId} {b : BlockId}
    (h : ss.foldlM (fun f s => f.dropPred s b) f = .ok f') :
    ∃ P : BlockId → List BlockId, f' = f.mapBlocks (fun c x => { x with preds := P c }) ∧
      ∀ c x p, f.blocks.get? c = some x →
        (P c).count p = x.preds.count p - if p = b then ss.count c else 0 := by
  induction ss generalizing f with
  | nil =>
    simp only [List.foldlM_nil, pure_eq_ok] at h
    subst h
    refine ⟨fun c => (f.blocks.get? c).elim [] (·.preds), ?_, fun c x p hx => by simp [hx]⟩
    conv_lhs => rw [← mapBlocks_id f]
    exact mapBlocks_congr fun w x hx => by simp [hx]
  | cons s ss ih =>
    simp only [List.foldlM_cons, bind_eq_ok, dropPred_eq_ok] at h
    obtain ⟨_, ⟨y, hy, rfl⟩, h⟩ := h
    obtain ⟨P, rfl, hP⟩ := ih h
    refine ⟨P, ?_, fun c x p hx => ?_⟩
    · rw [mapBlocks_mapBlocks]
      congr 1
      funext c x
      by_cases hc : c = s <;> simp [hc]
    · by_cases hc : c = s
      · subst hc
        rw [hy] at hx
        cases hx
        have hh := hP c { y with preds := (swapErase? (· == b) y.preds).getD y.preds } p
          (by simp [mapBlocks, hy])
        rw [hh, count_swapErase_getD]
        by_cases hp : p = b
        · simp [hp]
          omega
        · simp [hp]
      · have hh := hP c x p (by simp [mapBlocks, hx, hc])
        simp [hh, Ne.symm hc]

theorem addPreds_eq_ok {ss : List BlockId} {b : BlockId} :
    ss.foldlM (fun f s => f.addPred s b) f = .ok f' ↔
      (∀ s ∈ ss, ∃ x, f.blocks.get? s = some x) ∧
      f' = f.mapBlocks fun c x => { x with preds := x.preds ++ List.replicate (ss.count c) b } := by
  induction ss generalizing f with
  | nil =>
    simp only [List.foldlM_nil, pure_eq_ok, List.count_nil, List.replicate_zero, List.append_nil,
      mapBlocks_id]
    exact ⟨fun h => ⟨by simp, h.symm⟩, fun h => h.2.symm⟩
  | cons s ss ih =>
    have hk : ∀ g : Block → Block, ∀ c : BlockId,
        (∃ x, (f.mapBlocks fun c x => if c = s then g x else x).blocks.get? c = some x) ↔
          ∃ x, f.blocks.get? c = some x := by
      intro g c
      simp only [← Option.isSome_iff_exists]
      simp [mapBlocks]
    have hm : ∀ (c : BlockId) (x : Block),
        (if c = s then { x with preds := x.preds ++ [b] } else x).preds ++
          List.replicate (ss.count c) b = x.preds ++ List.replicate ((s :: ss).count c) b := by
      intro c x
      by_cases hc : c = s
      · subst hc
        simp [List.replicate_succ]
      · simp [hc, Ne.symm hc]
    simp only [List.foldlM_cons, bind_eq_ok, addPred_eq_ok]
    constructor
    · rintro ⟨_, ⟨hs, rfl⟩, h⟩
      obtain ⟨hss, rfl⟩ := ih.mp h
      refine ⟨List.forall_mem_cons.mpr ⟨hs, fun c hc => (hk _ c).mp (hss c hc)⟩, ?_⟩
      rw [mapBlocks_mapBlocks]
      congr 1
      funext c x
      rw [hm]
      by_cases hc : c = s <;> simp [hc]
    · rintro ⟨hss, rfl⟩
      refine ⟨_, ⟨hss s (by simp), rfl⟩,
        ih.mpr ⟨fun c hc => (hk _ c).mpr (hss c (by simp [hc])), ?_⟩⟩
      rw [mapBlocks_mapBlocks]
      congr 1
      funext c x
      rw [hm]
      by_cases hc : c = s <;> simp [hc]

theorem dropCondition_ok {c : Option ValueId} {b : BlockId}
    (h : c.elim (pure f) (f.dropBranchUse · b) = .ok f') :
    ∃ B : ValueId → List BlockId, f' = f.mapValues (fun w x => { x with branchUses := B w }) ∧
      ∀ w x, f.values.get? w = some x →
        x.branchUses.Perm (B w ++ if c = some w then [b] else []) := by
  cases c with
  | none =>
    have he : f = f' := pure_eq_ok.mp h
    subst he
    refine ⟨fun w => (f.values.get? w).elim [] (·.branchUses), ?_, fun w x hx => by simp [hx]⟩
    conv_lhs => rw [← mapValues_id f]
    exact mapValues_congr fun w x hx => by simp [hx]
  | some v =>
    obtain ⟨y, bs, hy, hb, rfl⟩ := dropBranchUse_eq_ok.mp h
    obtain ⟨c, hc, hperm⟩ := swapErase?_perm hb
    have he : c = b := by simpa using hc
    subst he
    refine ⟨fun w => if w = v then bs else (f.values.get? w).elim [] (·.branchUses), ?_, ?_⟩
    · exact mapValues_congr fun w x hx => by by_cases hw : w = v <;> simp [hw, hx]
    · intro w x hx
      by_cases hw : w = v
      · subst hw
        rw [hy] at hx
        cases hx
        simpa using hperm.trans (List.perm_append_singleton c bs).symm
      · simp [hw, hx, Ne.symm hw]

theorem addCondition_eq_ok {c : Option ValueId} {b : BlockId} :
    c.elim (pure f) (f.addBranchUse · b) = .ok f' ↔
      (∀ v, c = some v → ∃ x, f.values.get? v = some x) ∧
      f' = f.mapValues fun w x =>
        { x with branchUses := x.branchUses ++ if c = some w then [b] else [] } := by
  cases c with
  | none =>
    simp only [Option.elim, pure_eq_ok, reduceCtorEq, if_false, List.append_nil, mapValues_id]
    exact ⟨fun h => ⟨by simp, h.symm⟩, fun h => h.2.symm⟩
  | some v =>
    have hm : (f.mapValues fun w x =>
          if w = v then { x with branchUses := x.branchUses ++ [b] } else x) =
        f.mapValues fun w x =>
          { x with branchUses := x.branchUses ++ if some v = some w then [b] else [] } := by
      congr 1
      funext w x
      by_cases hw : w = v
      · simp [hw]
      · simp [hw, Ne.symm hw]
    simp only [Option.elim, addBranchUse_eq_ok, hm, Option.some.injEq, forall_eq']

theorem setTerminator_ok {b : BlockId} {t : Terminator} (h : f.setTerminator b t = .ok f') :
    ∃ (x : Block) (P : BlockId → List BlockId) (B : ValueId → List BlockId),
      f.blocks.get? b = some x ∧ (∀ s ∈ t.successors, ∃ y, f.blocks.get? s = some y) ∧
      (∀ v, t.condition? = some v → ∃ y, f.values.get? v = some y) ∧
      (∀ c y p, f.blocks.get? c = some y → (P c).count p =
        y.preds.count p - (if p = b then x.terminator.successors.count c else 0) +
          if p = b then t.successors.count c else 0) ∧
      (∀ w y, f.values.get? w = some y →
        (y.branchUses ++ if t.condition? = some w then [b] else []).Perm
          (B w ++ if x.terminator.condition? = some w then [b] else [])) ∧
      f' = ((f.mapBlocks fun c y =>
          { y with preds := P c, terminator := if c = b then t else y.terminator }).mapValues
        fun w y => { y with branchUses := B w }).flowChanged := by
  simp only [setTerminator, bind_eq_ok, block_eq_ok, addPreds_eq_ok, addCondition_eq_ok,
    pure_eq_ok, modifyBlock_eq] at h
  obtain ⟨x, hx, _, h1, _, h2, _, ⟨hs, rfl⟩, _, ⟨hc, rfl⟩, rfl⟩ := h
  obtain ⟨P, rfl, hP⟩ := dropPreds_ok h1
  obtain ⟨B, rfl, hB⟩ := dropCondition_ok h2
  refine ⟨x, fun c => P c ++ List.replicate (t.successors.count c) b,
    fun w => B w ++ if t.condition? = some w then [b] else [], hx, ?_, ?_, ?_, ?_, ?_⟩
  · intro s hm
    rw [← Option.isSome_iff_exists]
    simpa [mapBlocks, mapValues] using Option.isSome_iff_exists.mpr (hs s hm)
  · intro v hv
    rw [← Option.isSome_iff_exists]
    simpa [mapBlocks, mapValues] using Option.isSome_iff_exists.mpr (hc v hv)
  · intro c y p hy
    rw [List.count_append, hP c y p hy]
    by_cases hp : p = b
    · simp [hp]
    · simp [hp, List.count_replicate, Ne.symm hp]
  · intro w y hy
    refine ((hB w y (by simpa [mapBlocks] using hy)).append_right _).trans ?_
    simp only [List.append_assoc]
    exact List.perm_append_comm.append_left _
  · simp only [mapBlocks, mapValues, flowChanged, Arena.mapIds_mapIds]
    congr 2
    funext c y
    by_cases hcb : c = b <;> simp [hcb]

end Function

end ShaderSSA
