import ShaderSSA.Proofs.Dominance
import ShaderSSA.Proofs.History

/-! What edits keep in step. Each group of links depends on a few views of a function; an edit
that leaves those views alone keeps the group, and the others are gone through one by one. -/

namespace ShaderSSA.Function

variable {f f' : Function}

/-- Edges lead to blocks, and a block is listed as a predecessor once for each of them. -/
structure Edges (f : Function) : Prop where
  entry : 0 < f.blocks.size
  target : ∀ b, ∀ t ∈ f.blocks.successors b, t.index < f.blocks.size
  count : ∀ b c ps, f.preds? c = some ps → ps.count b = (f.blocks.successors b).count c

theorem Edges.of_eq (hf : f.Edges) (hz : f'.blocks.size = f.blocks.size)
    (hs : f'.blocks.successors = f.blocks.successors) (hp : f'.preds? = f.preds?) : f'.Edges := by
  refine ⟨?_, ?_, ?_⟩
  · rw [hz]
    exact hf.entry
  · rw [hs, hz]
    exact hf.target
  · rw [hs, hp]
    exact hf.count

theorem Edges.addBlock (hf : f.Edges) : f.addBlock.2.Edges := by
  have hs : ∀ b, f.addBlock.2.blocks.successors b = f.blocks.successors b := by
    intro b
    simp only [Blocks.successors, Function.addBlock, flowChanged, Arena.get?_alloc]
    by_cases hb : b = ⟨f.blocks.size⟩
    · simp [hb, Arena.alloc, Arena.get?_size, Block.empty, Terminator.successors]
    · simp [hb, Arena.alloc]
  have hz : f.addBlock.2.blocks.size = f.blocks.size + 1 := by
    simp [Function.addBlock, flowChanged]
  refine ⟨by omega, ?_, ?_⟩
  · intro b t ht
    rw [hs] at ht
    have := hf.target b t ht
    omega
  · intro b c ps hc
    rw [hs]
    simp only [preds?, Function.addBlock, flowChanged, Arena.get?_alloc] at hc
    by_cases hn : c = ⟨f.blocks.size⟩
    · have hps : ps = [] := by simpa [hn, Arena.alloc, Block.empty] using hc.symm
      have hm : c ∉ f.blocks.successors b := by
        intro hm
        have := hf.target b c hm
        simp [hn] at this
      simp [hps, List.count_eq_zero_of_not_mem hm]
    · exact hf.count b c ps (by simpa [preds?, hn, Arena.alloc] using hc)

theorem Edges.setTerminator {b : BlockId} {t : Terminator} (hf : f.Edges)
    (h : f.setTerminator b t = .ok f') : f'.Edges := by
  obtain ⟨x, P, B, hx, ht, -, hP, -, rfl⟩ := setTerminator_ok h
  have hs : ∀ c, (((f.mapBlocks fun c y => { y with
      preds := P c, terminator := if c = b then t else y.terminator }).mapValues
      fun w y => { y with branchUses := B w }).flowChanged).blocks.successors c =
      if c = b then t.successors else f.blocks.successors c := by
    intro c
    simp only [Blocks.successors, flowChanged, mapValues, mapBlocks, Arena.get?_mapIds]
    by_cases hc : c = b
    · simp [hc, hx]
    · cases f.blocks.get? c <;> simp [hc]
  refine ⟨by simpa [flowChanged, mapValues, mapBlocks] using hf.entry, ?_, ?_⟩
  · intro c s hm
    rw [hs] at hm
    simp only [flowChanged, mapValues, mapBlocks, Arena.size_mapIds]
    by_cases hc : c = b
    · obtain ⟨y, hy⟩ := ht s (by simpa [hc] using hm)
      exact Arena.get?_eq_some_lt hy
    · exact hf.target c s (by simpa [hc] using hm)
  · intro p c ps hps
    rw [hs]
    simp only [preds?, flowChanged, mapValues, mapBlocks, Arena.get?_mapIds, Option.map_map,
      Option.map_eq_some_iff] at hps
    obtain ⟨y, hy, rfl⟩ := hps
    have hcount := hf.count p c y.preds (by simp [preds?, hy])
    simp only [Function.comp]
    rw [hP c y p hy, hcount]
    by_cases hp : p = b
    · subst hp
      simp [Blocks.successors, hx]
    · simp [hp]

theorem successors_setCondition {b : BlockId} {v : ValueId} (h : f.setCondition b v = .ok f') :
    f'.blocks.successors = f.blocks.successors := by
  obtain ⟨x, old, y, bs, hx, -, -, -, -, rfl⟩ := setCondition_eq_ok.mp h
  funext c
  simp only [Blocks.successors, mapValues, mapBlocks, Arena.get?_mapIds]
  by_cases hc : c = b
  · simp [hc, hx]
  · cases f.blocks.get? c <;> simp [hc]

theorem Edges.wired (hf : f.Edges) : f.blocks.Wired := by
  refine ⟨hf.entry, hf.target, fun b c => ?_⟩
  rw [preds_eq]
  cases hps : f.preds? c with
  | some ps => rw [Option.getD_some, ← List.count_pos_iff, hf.count b c ps hps, List.count_pos_iff]
  | none =>
    have hsize : f.blocks.size ≤ c.index := by simpa [preds?, Arena.get?_eq_none_iff] using hps
    simpa using fun hm => absurd (hf.target b c hm) (by omega)

/-- The same blocks with the same edges between them. -/
structure SameFlow (f f' : Function) : Prop where
  size : f'.blocks.size = f.blocks.size
  successors : f'.blocks.successors = f.blocks.successors
  preds : f'.preds? = f.preds?

/-- Only two changes touch the control flow. The others leave the analyses alone too, or drop the
tree and the flag for it together, or set both for the blocks there are. -/
theorem Change.flow (h : Change f f') :
    f' = f.addBlock.2 ∨ (∃ b t, f.setTerminator b t = .ok f') ∨
      SameFlow f f' ∧ (∀ t, f'.dominance = some t → f.dominance = some t ∨ t = .build f.blocks) ∧
        (f.dominance.isSome = f.valid.dominance → f'.dominance.isSome = f'.valid.dominance) := by
  have hkeep : ∀ {g : Function}, SameFlow f g → g.dominance = f.dominance → g.valid = f.valid →
      SameFlow f g ∧ (∀ t, g.dominance = some t → f.dominance = some t ∨ t = .build f.blocks) ∧
        (f.dominance.isSome = f.valid.dominance → g.dominance.isSome = g.valid.dominance) :=
    fun hs hd hv => ⟨hs, fun t ht => .inl (hd ▸ ht), fun h => by rw [hd, hv, h]⟩
  cases h with
  | addBlock => exact .inl rfl
  | setTerminator h => exact .inr (.inl ⟨_, _, h⟩)
  | setCondition h =>
    have hs := successors_setCondition h
    obtain ⟨x, old, y, bs, -, -, -, -, -, rfl⟩ := setCondition_eq_ok.mp h
    refine .inr (.inr (hkeep ⟨by simp [mapBlocks, mapValues], hs, preds?_mapBlocks ?_⟩ rfl rfl))
    intro c z
    split <;> rfl
  | insert h =>
    obtain ⟨b, pos, -, -, -, -, -, rfl⟩ := insert_eq_ok.mp h
    refine .inr (.inr (hkeep ⟨by simp [inserted], ?_, preds?_inserted ..⟩ rfl rfl))
    funext c
    simp only [successors_eq, terminator?_inserted]
  | replaceSource h =>
    obtain ⟨x, old, -, -, ⟨-, rfl⟩ | ⟨-, y, us, z, -, -, -, rfl⟩⟩ := replaceSource_eq_ok.mp h
    · exact .inr (.inr (hkeep ⟨rfl, rfl, rfl⟩ rfl rfl))
    · exact .inr (.inr (hkeep ⟨rfl, rfl, rfl⟩ rfl rfl))
  | modifySwizzle h =>
    obtain ⟨x, a, o, w, -, -, -, -, rfl⟩ := modifySwizzle_eq_ok.mp h
    exact .inr (.inr (hkeep ⟨rfl, rfl, rfl⟩ rfl rfl))
  | replaceUses h =>
    obtain ⟨-, x, y, -, -, -, rfl⟩ := replaceUses_eq_ok.mp h
    refine .inr (.inr (hkeep ⟨by simp [mapBlocks, mapValues], successors_mapBlocks ?_,
      preds?_mapBlocks ?_⟩ rfl rfl))
    · intro c z
      split <;> simp
    · intro c z
      split <;> rfl
  | remove h =>
    obtain ⟨x, U, -, -, -, -, rfl⟩ := remove_ok h
    refine .inr (.inr (hkeep ⟨by simp [mapBlocks, mapValues, mapInstrs], successors_mapBlocks ?_,
      preds?_mapBlocks ?_⟩ rfl rfl))
    · intro c z
      split <;> rfl
    · intro c z
      split <;> rfl
  | analyses d m hd hm => exact .inr (.inr ⟨⟨rfl, rfl, rfl⟩, hd, hm⟩)

theorem Edges.change (hf : f.Edges) (h : Change f f') : f'.Edges := by
  rcases h.flow with rfl | ⟨b, t, h⟩ | ⟨hs, -⟩
  · exact hf.addBlock
  · exact hf.setTerminator h
  · exact hf.of_eq hs.size hs.successors hs.preds

/-- A dominator tree that is kept is the one of the blocks there are. -/
def Cached (f : Function) : Prop := ∀ t, f.dominance = some t → t = DominatorTree.build f.blocks

theorem SameFlow.build (h : SameFlow f f') :
    DominatorTree.build f'.blocks = DominatorTree.build f.blocks := by
  have hp : f'.blocks.preds = f.blocks.preds := by
    funext b
    rw [preds_eq, preds_eq, h.preds]
  have hstep : Search.step f'.blocks = Search.step f.blocks := by
    funext s
    simp only [Search.step, h.successors]
  have hrun : Search.run f'.blocks = Search.run f.blocks := by
    funext n
    induction n with
    | zero => rfl
    | succ n ih =>
      funext s
      simp only [Search.run, ih, hstep]
  have horder : f'.blocks.reversePostorder = f.blocks.reversePostorder := by
    simp only [Blocks.reversePostorder, Search.complete, Search.ofEntry, hrun, h.size, h.successors]
  have hvisit : Parents.visit f'.blocks = Parents.visit f.blocks := by
    funext order s b
    simp only [Parents.visit, hp]
  have hsettle : Parents.settle f'.blocks = Parents.settle f.blocks := by
    funext order rounds
    induction rounds with
    | zero => rfl
    | succ rounds ih =>
      funext t
      simp only [Parents.settle, Parents.sweep, hvisit, ih]
  simp only [DominatorTree.build, DominatorTree.ofParents, Parents.ofBlocks, Parents.start,
    Arena.ids, horder, hsettle, h.size]

theorem Cached.change (hf : f.Cached) (h : Change f f') : f'.Cached := by
  intro t ht
  rcases h.flow with rfl | ⟨b, t', h⟩ | ⟨hs, hd, -⟩
  · simp [addBlock, flowChanged] at ht
  · obtain ⟨x, P, B, -, -, -, -, -, rfl⟩ := setTerminator_ok h
    simp [flowChanged] at ht
  · rw [hs.build]
    exact (hd t ht).elim (hf t) fun h => h

/-- A block is listed once at the value it branches on. -/
structure Branches (f : Function) : Prop where
  known : ∀ b v, f.condition? b = some v → f.hasValue v
  count : ∀ b v bs, f.branches? v = some bs →
    bs.count b = if f.condition? b = some v then 1 else 0

theorem Branches.of_eq (hf : f.Branches) (hv : ∀ v, f.hasValue v → f'.hasValue v)
    (ht : f'.terminator? = f.terminator?) (hb : f'.branches? = f.branches?) : f'.Branches := by
  have hc : f'.condition? = f.condition? := by
    funext b
    simp only [condition?, ht]
  refine ⟨?_, ?_⟩
  · rw [hc]
    exact fun b v h => hv v (hf.known b v h)
  · rw [hc, hb]
    exact hf.count

theorem Branches.nodup (hf : f.Branches) {v : ValueId} {bs : List BlockId}
    (h : f.branches? v = some bs) : bs.Nodup := by
  refine List.nodup_iff_count_le_one.mpr fun b => ?_
  rw [hf.count b v bs h]
  split <;> omega

theorem Branches.mem_iff (hf : f.Branches) {b : BlockId} {v : ValueId} {bs : List BlockId}
    (h : f.branches? v = some bs) : b ∈ bs ↔ f.condition? b = some v := by
  rw [← List.count_pos_iff, hf.count b v bs h]
  split <;> simp_all

theorem condition?_eq (f : Function) (b : BlockId) :
    f.condition? b = (f.blocks.get? b).bind (·.terminator.condition?) := by
  simp [condition?, terminator?, Option.bind_map]

theorem Branches.recondition {b : BlockId} {n : Option ValueId} (hf : f.Branches)
    (hn : ∀ v, n = some v → f.hasValue v) (hv : ∀ v, f.hasValue v → f'.hasValue v)
    (hc : ∀ c, f'.condition? c = if c = b then n else f.condition? c)
    (hb : ∀ w bs', f'.branches? w = some bs' → ∃ bs, f.branches? w = some bs ∧
      ∀ c, bs'.count c + (if f.condition? b = some w ∧ c = b then 1 else 0) =
        bs.count c + if n = some w ∧ c = b then 1 else 0) : f'.Branches := by
  refine ⟨?_, ?_⟩
  · intro c v h
    rw [hc] at h
    split_ifs at h
    · exact hv v (hn v h)
    · exact hv v (hf.known c v h)
  · intro c w bs' h
    obtain ⟨bs, hbs, hcount⟩ := hb w bs' h
    have hold := hf.count c w bs hbs
    have hnew := hcount c
    rw [hc]
    by_cases hcb : c = b
    · subst hcb
      simp only [and_true, if_true] at hnew ⊢
      omega
    · simp only [hcb, and_false, if_false] at hnew ⊢
      omega

theorem Branches.addBlock (hf : f.Branches) : f.addBlock.2.Branches := by
  have hc : ∀ b, f.addBlock.2.condition? b = f.condition? b := by
    intro b
    simp only [condition?_eq, Function.addBlock, flowChanged, Arena.get?_alloc]
    by_cases hb : b = ⟨f.blocks.size⟩
    · simp [hb, Arena.alloc, Arena.get?_size, Block.empty, Terminator.condition?]
    · simp [hb, Arena.alloc]
  refine ⟨?_, ?_⟩
  · intro b v h
    exact hf.known b v (by rwa [← hc])
  · intro b v bs h
    rw [hc]
    exact hf.count b v bs h

theorem Branches.setTerminator {b : BlockId} {t : Terminator} (hf : f.Branches)
    (h : f.setTerminator b t = .ok f') : f'.Branches := by
  obtain ⟨x, P, B, hx, -, hv, -, hB, rfl⟩ := setTerminator_ok h
  have hxc : f.condition? b = x.terminator.condition? := by simp [condition?_eq, hx]
  refine hf.recondition (b := b) (n := t.condition?) ?_ ?_ ?_ ?_
  · intro v hn
    exact hasValue_iff.mpr (hv v hn)
  · intro v hk
    simpa [hasValue, flowChanged, mapValues, mapBlocks] using hk
  · intro c
    simp only [condition?_eq, flowChanged, mapValues, mapBlocks, Arena.get?_mapIds]
    by_cases hc : c = b
    · simp [hc, hx]
    · cases f.blocks.get? c <;> simp [hc]
  · intro w bs' hbs
    simp only [branches?, flowChanged, mapValues, mapBlocks, Arena.get?_mapIds, Option.map_map,
      Option.map_eq_some_iff] at hbs
    obtain ⟨y, hy, rfl⟩ := hbs
    refine ⟨y.branchUses, by simp [branches?, hy], fun c => ?_⟩
    have hperm := (hB w y hy).count_eq c
    rw [hxc]
    simp only [List.count_append] at hperm
    by_cases hcb : c = b
    · subst hcb
      simp only [and_true]
      split_ifs at hperm ⊢ <;> simp_all
    · have hn : ∀ p : Prop, ∀ [Decidable p], (if p then [b] else []).count c = 0 := by
        intro p _
        split_ifs <;> simp [Ne.symm hcb]
      simp only [hn, hcb, and_false, if_false] at hperm ⊢
      exact hperm.symm

theorem condition?_withCondition {t : Terminator} {v w : ValueId}
    (h : t.condition? = some w) : (t.withCondition v).condition? = some v := by
  cases t <;> simp_all [Terminator.condition?, Terminator.withCondition]

theorem Branches.setCondition {b : BlockId} {v : ValueId} (hf : f.Branches)
    (h : f.setCondition b v = .ok f') : f'.Branches := by
  obtain ⟨x, old, y, bs, hx, hold, hy, hbs, hz, rfl⟩ := setCondition_eq_ok.mp h
  obtain ⟨a, ha, hperm⟩ := swapErase?_perm hbs
  obtain rfl : a = b := by simpa using ha
  have hxc : f.condition? a = some old := by simp [condition?_eq, hx, hold]
  refine hf.recondition (b := a) (n := some v) ?_ ?_ ?_ ?_
  · rintro w rfl'
    obtain rfl : v = w := by simpa using rfl'
    exact hasValue_iff.mpr hz
  · intro w hk
    simpa [hasValue, mapValues, mapBlocks] using hk
  · intro c
    simp only [condition?_eq, mapValues, mapBlocks, Arena.get?_mapIds]
    by_cases hc : c = a
    · simp [hc, hx, condition?_withCondition hold]
    · cases f.blocks.get? c <;> simp [hc]
  · intro w us hus
    simp only [branches?, mapValues, mapBlocks, Arena.get?_mapIds, Option.map_map,
      Option.map_eq_some_iff] at hus
    obtain ⟨u, hu, rfl⟩ := hus
    refine ⟨u.branchUses, by simp [branches?, hu], fun c => ?_⟩
    have hdrop : (if w = old then bs else u.branchUses).count c +
        (if old = w ∧ c = a then 1 else 0) = u.branchUses.count c := by
      by_cases hw : w = old
      · subst hw
        obtain rfl : y = u := by simpa [hu] using hy.symm
        rw [hperm.count_eq c]
        by_cases hca : c = a
        · simp [hca]
        · simp [hca, Ne.symm hca]
      · simp [hw, Ne.symm hw]
    have hlist : ((if w = old then { u with branchUses := bs } else u : Value)).branchUses =
        if w = old then bs else u.branchUses := by
      split_ifs <;> rfl
    simp only [hxc, Option.some.injEq, Function.comp]
    by_cases hwv : w = v
    · by_cases hca : c = a
      · simp only [hwv, hca, if_true, and_true, List.count_append] at hdrop hlist ⊢
        rw [hlist]
        simp
        omega
      · simp only [hwv, hca, if_true, and_false, if_false, List.count_append] at hdrop hlist ⊢
        rw [hlist]
        simp [Ne.symm hca]
        omega
    · simp only [hwv, Ne.symm hwv, if_false, false_and, hlist]
      omega

theorem Branches.replaceUses {old new : ValueId} (hf : f.Branches)
    (h : f.replaceUses old new = .ok f') : f'.Branches := by
  obtain ⟨hne, x, y, hx, hy, -, rfl⟩ := replaceUses_eq_ok.mp h
  have hmem : ∀ c, c ∈ x.branchUses ↔ f.condition? c = some old :=
    fun c => hf.mem_iff (by simp [branches?, hx])
  have hc : ∀ g g' c, (((f.redirect g).mapBlocks fun b z => if b ∈ x.branchUses then
      { z with terminator := z.terminator.withCondition new } else z).mapValues g').condition? c =
      if f.condition? c = some old then some new else f.condition? c := by
    intro g g' c
    simp only [condition?_eq, mapValues, mapBlocks, blocks_redirect, Arena.get?_mapIds, hmem]
    cases hb : f.blocks.get? c with
    | none => simp
    | some z =>
      by_cases hz : z.terminator.condition? = some old
      · simp [hz, condition?_withCondition hz]
      · simp [hz]
  refine ⟨?_, ?_⟩
  · intro c v h
    rw [hc] at h
    have hk : f.hasValue v := by
      split_ifs at h
      · obtain rfl : new = v := by simpa using h
        exact hasValue_iff.mpr ⟨y, hy⟩
      · exact hf.known c v h
    simpa [hasValue, mapValues, mapBlocks] using hk
  · intro c w bs' hbs
    rw [hc]
    simp only [branches?, mapValues, mapBlocks, values_redirect, Arena.get?_mapIds, Option.map_map,
      Option.map_eq_some_iff] at hbs
    obtain ⟨u, hu, rfl⟩ := hbs
    have hu' := hf.count c w u.branchUses (by simp [branches?, hu])
    have hx' := hf.count c old x.branchUses (by simp [branches?, hx])
    by_cases hwo : w = old
    · subst hwo
      by_cases hcw : f.condition? c = some w
      · simp [hcw, hne.symm]
      · simp [hcw]
    · by_cases hwn : w = new
      · subst hwn
        simp only [Function.comp, hwo, if_false, if_true, List.count_append, hu', hx']
        by_cases hco : f.condition? c = some old
        · simp [hco, hne]
        · simp [hco]
      · simp only [Function.comp, hwo, hwn, if_false, hu']
        by_cases hco : f.condition? c = some old
        · simp [hco, Ne.symm hwo, Ne.symm hwn]
        · simp [hco]

theorem Branches.insert {c : Cursor} {body : Body} {dest : Option Shape} {i : InstrId}
    (hf : f.Branches) (h : f.insert c body dest = .ok (i, f')) : f'.Branches := by
  obtain ⟨b, pos, -, -, -, -, -, rfl⟩ := insert_eq_ok.mp h
  have hc : ∀ b', (f.inserted b pos body dest).condition? b' = f.condition? b' := by
    intro b'
    simp only [condition?, terminator?_inserted]
  refine ⟨?_, ?_⟩
  · intro b' v hv
    rw [hc] at hv
    exact hasValue_inserted _ _ _ _ _ (hf.known b' v hv)
  · intro b' v bs hbs
    rw [hc]
    rw [branches?_inserted] at hbs
    by_cases hv : v = ⟨f.values.size⟩
    · have hn : f.condition? b' ≠ some v := by
        intro hh
        obtain ⟨x, hx⟩ := hasValue_iff.mp (hf.known b' v hh)
        simp [hv, Arena.get?_size] at hx
      cases dest with
      | none => simp [hv] at hbs
      | some shape =>
        obtain rfl : bs = [] := by simpa [hv] using hbs.symm
        simp [hn]
    · exact hf.count b' v bs (by simpa [hv] using hbs)

theorem Branches.change (hf : f.Branches) (h : Change f f') : f'.Branches := by
  cases h with
  | addBlock => exact hf.addBlock
  | setTerminator h => exact hf.setTerminator h
  | setCondition h => exact hf.setCondition h
  | insert h => exact hf.insert h
  | replaceSource h =>
    obtain ⟨x, old, -, -, ⟨-, rfl⟩ | ⟨-, y, us, z, -, -, -, rfl⟩⟩ := replaceSource_eq_ok.mp h
    · exact hf
    · refine hf.of_eq (fun v hv => by simpa [hasValue, mapValues] using hv) rfl
        (branches?_mapValues ?_)
      intro w z
      split_ifs <;> rfl
  | modifySwizzle h =>
    obtain ⟨x, a, o, w, -, -, -, -, rfl⟩ := modifySwizzle_eq_ok.mp h
    exact hf.of_eq (fun _ hv => hv) rfl rfl
  | replaceUses h => exact hf.replaceUses h
  | remove h =>
    obtain ⟨x, U, -, -, -, -, rfl⟩ := remove_ok h
    refine hf.of_eq (fun v hv => by simpa [mapInstrs, mapBlocks, hasValue, mapValues] using hv)
      (terminator?_mapBlocks ?_) (branches?_mapValues ?_)
    · intro c z
      split_ifs <;> rfl
    · intro w z
      rfl
  | analyses d m hd hm => exact hf.of_eq (fun _ hv => hv) rfl rfl

/-- An instruction that is not removed stands once in its block, and in no other. -/
def Placed (f : Function) : Prop :=
  ∀ b i, (f.blockInstrs b).count i = if f.home? i = some b then 1 else 0

theorem Placed.of_eq (hf : f.Placed) (hb : f'.blockInstrs = f.blockInstrs)
    (hh : f'.home? = f.home?) : f'.Placed := by
  intro b i
  rw [hb, hh]
  exact hf b i

theorem Placed.mem_iff (hf : f.Placed) {b : BlockId} {i : InstrId} :
    i ∈ f.blockInstrs b ↔ f.home? i = some b := by
  rw [← List.count_pos_iff, hf b i]
  split <;> simp_all

theorem Placed.mem_layout (hf : f.Placed) {b : BlockId} {i : InstrId}
    (hi : f.home? i = some b) : b ∈ f.layout := by
  have hmem := hf.mem_iff.mpr hi
  refine (Arena.mem_ids _ _).mpr ?_
  cases hb : f.blocks.get? b with
  | none => simp [blockInstrs, hb] at hmem
  | some x => exact Arena.get?_eq_some_lt hb

theorem Placed.nodup (hf : f.Placed) (b : BlockId) : (f.blockInstrs b).Nodup := by
  rw [List.nodup_iff_count_le_one]
  intro i
  rw [hf b i]
  split <;> omega

theorem blockInstrs_addBlock (f : Function) : f.addBlock.2.blockInstrs = f.blockInstrs := by
  funext b
  simp only [blockInstrs, Function.addBlock, flowChanged, Arena.get?_alloc]
  by_cases hb : b = ⟨f.blocks.size⟩
  · simp [hb, Arena.alloc, Arena.get?_size, Block.empty]
  · simp [hb, Arena.alloc]

theorem Placed.insert {c : Cursor} {body : Body} {dest : Option Shape} {i : InstrId}
    (hf : f.Placed) (h : f.insert c body dest = .ok (i, f')) : f'.Placed := by
  obtain ⟨b, pos, hr, -, -, hb, -, rfl⟩ := insert_eq_ok.mp h
  have hnew : ∀ b', f.home? ⟨f.instrs.size⟩ ≠ some b' := by
    simp [home?, Arena.get?_size]
  intro b' j
  rw [blockInstrs_inserted _ _ _ _ _ hb, home?_inserted]
  have hold := hf b' j
  by_cases hbb : b' = b
  · subst hbb
    rw [if_pos rfl, (List.perm_insertIdx _ _ (resolve_le hr)).count_eq, List.count_cons, hold]
    by_cases hj : j = ⟨f.instrs.size⟩
    · simp [hj, hnew]
    · simp [hj, Ne.symm hj]
  · rw [if_neg hbb, hold]
    by_cases hj : j = ⟨f.instrs.size⟩
    · simp [hj, hnew, Ne.symm hbb]
    · simp [hj]

theorem home?_mapInstrs_removed (f : Function) (i j : InstrId) :
    (f.mapInstrs fun k y => if k = i then { y with removed := true } else y).home? j =
      if j = i then none else f.home? j := by
  simp only [home?, mapInstrs, Arena.get?_mapIds]
  by_cases hj : j = i
  · cases f.instrs.get? j <;> simp [hj]
  · cases f.instrs.get? j <;> simp [hj]

theorem Placed.remove {i : InstrId} (hf : f.Placed) (h : f.remove i = .ok f') : f'.Placed := by
  obtain ⟨x, U, hx, hr, -, -, rfl⟩ := remove_ok h
  have hhome : f.home? i = some x.block := home?_eq_some.mpr ⟨x, hx, hr, rfl⟩
  have hblock : ∀ g g' c, (((f.mapValues g).mapBlocks fun b y => if b = x.block then
      { y with instrs := y.instrs.erase i } else y).mapInstrs g').blockInstrs c =
      if c = x.block then (f.blockInstrs c).erase i else f.blockInstrs c := by
    intro g g' c
    simp only [blockInstrs, mapInstrs, mapBlocks, mapValues, Arena.get?_mapIds]
    cases f.blocks.get? c with
    | none => simp
    | some y => by_cases hc : c = x.block <;> simp [hc]
  intro b j
  rw [hblock, home?_mapInstrs_removed]
  have hold := hf b j
  have hkeep : ∀ g gb, ((f.mapValues g).mapBlocks gb).home? j = f.home? j := fun _ _ => rfl
  rw [hkeep]
  by_cases hj : j = i
  · subst hj
    rw [hhome] at hold
    by_cases hb : b = x.block
    · simp [hb, List.count_erase_self, hb ▸ hold]
    · simp [hb, hold, Ne.symm hb]
  · by_cases hb : b = x.block
    · simp [hb, hj, List.count_erase_of_ne hj, hb ▸ hold]
    · simp [hb, hj, hold]

theorem Placed.change (hf : f.Placed) (h : Change f f') : f'.Placed := by
  cases h with
  | addBlock => exact hf.of_eq (blockInstrs_addBlock f) rfl
  | setTerminator h =>
    obtain ⟨x, P, B, -, -, -, -, -, rfl⟩ := setTerminator_ok h
    exact hf.of_eq (blockInstrs_mapBlocks fun _ _ => rfl) rfl
  | setCondition h =>
    obtain ⟨x, old, y, bs, -, -, -, -, -, rfl⟩ := setCondition_eq_ok.mp h
    refine hf.of_eq (blockInstrs_mapBlocks ?_) rfl
    intro c z
    split <;> rfl
  | insert h => exact hf.insert h
  | replaceSource h =>
    obtain ⟨x, old, -, -, ⟨-, rfl⟩ | ⟨-, y, us, z, -, -, -, rfl⟩⟩ := replaceSource_eq_ok.mp h
    · exact hf
    · exact hf.of_eq rfl (home?_redirect ..)
  | modifySwizzle h =>
    obtain ⟨x, a, o, w, -, -, -, -, rfl⟩ := modifySwizzle_eq_ok.mp h
    refine hf.of_eq rfl (home?_mapInstrs ?_ ?_)
    · intro j z
      split <;> rfl
    · intro j z
      split <;> rfl
  | @replaceUses _ old new h =>
    obtain ⟨-, x, y, -, -, -, rfl⟩ := replaceUses_eq_ok.mp h
    refine hf.of_eq (blockInstrs_mapBlocks ?_)
      (home?_redirect f fun u w => if u ∈ x.uses then new else w)
    intro c z
    split <;> rfl
  | remove h => exact hf.remove h
  | analyses d m hd hm => exact hf.of_eq rfl rfl

/-- A value and the instruction that defines it name each other. -/
structure Defined (f : Function) : Prop where
  iff : ∀ i v, f.dest? i = some v ↔ f.source? v = some i
  width : ∀ v s, f.shape? v = some s → 1 ≤ s.width ∧ s.width ≤ 4

theorem Defined.of_eq (hf : f.Defined) (hd : f'.dest? = f.dest?) (hs : f'.source? = f.source?)
    (hw : f'.shape? = f.shape?) : f'.Defined := by
  refine ⟨?_, ?_⟩
  · rw [hd, hs]
    exact hf.iff
  · rw [hw]
    exact hf.width

theorem Defined.insert {c : Cursor} {body : Body} {dest : Option Shape} {i : InstrId}
    (hf : f.Defined) (h : f.insert c body dest = .ok (i, f')) : f'.Defined := by
  obtain ⟨b, pos, -, -, hw, -, -, rfl⟩ := insert_eq_ok.mp h
  refine ⟨?_, ?_⟩
  · intro j v
    have hnone : f.source? ⟨f.values.size⟩ = none := by simp [source?, Arena.get?_size]
    have hnone' : f.dest? ⟨f.instrs.size⟩ = none := by simp [dest?, Arena.get?_size]
    have hold := hf.iff j v
    rw [dest?_inserted, source?_inserted]
    by_cases hj : j = ⟨f.instrs.size⟩
    · by_cases hv : v = ⟨f.values.size⟩
      · cases dest <;> simp [hj, hv]
      · rw [hj, hnone'] at hold
        have hn : f.source? v ≠ some ⟨f.instrs.size⟩ := fun hh => by simpa using hold.mpr hh
        cases dest <;> simp [hj, hv, hn, Ne.symm hv]
    · by_cases hv : v = ⟨f.values.size⟩
      · rw [hv, hnone] at hold
        have hn : f.dest? j ≠ some ⟨f.values.size⟩ := fun hh => by simpa using hold.mp hh
        cases dest <;> simp [hj, hv, hn, Ne.symm hj]
      · simp [hj, hv, hold]
  · intro v s hs
    rw [shape?_inserted] at hs
    split_ifs at hs
    · exact hw s hs
    · exact hf.width v s hs

theorem Defined.change (hf : f.Defined) (h : Change f f') : f'.Defined := by
  cases h with
  | addBlock => exact hf.of_eq rfl rfl rfl
  | setTerminator h =>
    obtain ⟨x, P, B, -, -, -, -, -, rfl⟩ := setTerminator_ok h
    exact hf.of_eq rfl (source?_mapValues fun _ _ => rfl) (shape?_mapValues fun _ _ => rfl)
  | setCondition h =>
    obtain ⟨x, old, y, bs, -, -, -, -, -, rfl⟩ := setCondition_eq_ok.mp h
    rw [mapValues_mapValues]
    refine hf.of_eq rfl (source?_mapValues ?_) (shape?_mapValues ?_)
    · intro w z
      split_ifs <;> rfl
    · intro w z
      split_ifs <;> rfl
  | insert h => exact hf.insert h
  | replaceSource h =>
    obtain ⟨x, old, -, -, ⟨-, rfl⟩ | ⟨-, y, us, z, -, -, -, rfl⟩⟩ := replaceSource_eq_ok.mp h
    · exact hf
    · refine hf.of_eq (dest?_redirect ..) (source?_mapValues ?_) (shape?_mapValues ?_)
      · intro w z
        split_ifs <;> rfl
      · intro w z
        split_ifs <;> rfl
  | modifySwizzle h =>
    obtain ⟨x, a, o, w, -, -, -, -, rfl⟩ := modifySwizzle_eq_ok.mp h
    refine hf.of_eq (dest?_mapInstrs ?_) rfl rfl
    intro j z
    split <;> rfl
  | @replaceUses _ old new h =>
    obtain ⟨-, x, y, -, -, -, rfl⟩ := replaceUses_eq_ok.mp h
    refine hf.of_eq (dest?_redirect f fun u w => if u ∈ x.uses then new else w)
      (source?_mapValues ?_) (shape?_mapValues ?_)
    · intro w z
      split_ifs <;> rfl
    · intro w z
      split_ifs <;> rfl
  | remove h =>
    obtain ⟨x, U, -, -, -, -, rfl⟩ := remove_ok h
    refine hf.of_eq (dest?_mapInstrs ?_) (source?_mapValues fun _ _ => rfl)
      (shape?_mapValues fun _ _ => rfl)
    intro j z
    split <;> rfl
  | analyses d m hd hm => exact hf.of_eq rfl rfl rfl

end ShaderSSA.Function
