import ShaderSSA.Proofs.Verified

/-! Taking an instruction out once its readers have gone over to another value. -/

namespace ShaderSSA

/-- The terminator that tests another value. -/
def Terminator.rename (ρ : ValueId → ValueId) : Terminator → Terminator
  | branch c yes no => branch (ρ c) yes no
  | t => t

theorem Terminator.rename_rename (t : Terminator) (ρ ρ' : ValueId → ValueId) :
    (t.rename ρ).rename ρ' = t.rename fun v => ρ' (ρ v) := by
  cases t <;> rfl

namespace Function

variable {f g : Function}

/-- `g` is `f` without `i`, and what is left reads through `ρ`. -/
structure Replaced (f : Function) (i : InstrId) (ρ : ValueId → ValueId) (g : Function) : Prop where
  body : ∀ j b, f.home? j = some b → g.body? j = (f.body? j).map fun x => x.mapSrcs fun _ => ρ
  dest : g.dest? = f.dest?
  shape : g.shape? = f.shape?
  source : g.source? = f.source?
  home : ∀ j, g.home? j = if j = i then none else f.home? j
  blocks : ∀ b, g.blockInstrs b = (f.blockInstrs b).filter (· != i)
  terminator : ∀ b, g.terminator? b = (f.terminator? b).map (·.rename ρ)

theorem replaceUses_isOk {v w : ValueId} (hf : f.Recorded) (hne : v ≠ w) (hv : f.hasValue v)
    (hw : f.hasValue w) : ∃ g, f.replaceUses v w = .ok g := by
  obtain ⟨x, hx⟩ := hasValue_iff.mp hv
  obtain ⟨y, hy⟩ := hasValue_iff.mp hw
  refine ⟨_, replaceUses_eq_ok.mpr ⟨hne, x, y, hx, hy, ?_, rfl⟩⟩
  intro u hu
  have hread : f.reads? u = some v := (hf.mem_iff (by simp [uses?, hx])).mp hu
  obtain ⟨z, hz, -, hs⟩ := reads?_eq_some.mp hread
  obtain ⟨hlt, -⟩ := List.getElem?_eq_some_iff.mp hs
  exact ⟨z, hz, hlt⟩

/-- The name that readers of `v` use once they have gone over to `w`. -/
def handOver (v w : ValueId) : ValueId → ValueId := fun x => if x = v then w else x

theorem body?_replaceUses {v w : ValueId} (hf : f.Recorded) (h : f.replaceUses v w = .ok g)
    {j : InstrId} {b : BlockId} (hj : f.home? j = some b) :
    g.body? j = (f.body? j).map fun x => x.mapSrcs fun _ => handOver v w := by
  obtain ⟨hne, x, y, hx, hy, -, rfl⟩ := replaceUses_eq_ok.mp h
  have hbody := body?_redirect f (fun u a => if u ∈ x.uses then w else a) j
  refine Eq.trans hbody ?_
  cases hbj : f.body? j with
  | none => rfl
  | some body =>
    obtain ⟨z, hz, rfl⟩ := Option.map_eq_some_iff.mp hbj
    obtain ⟨z', hz', hr, -⟩ := home?_eq_some.mp hj
    obtain rfl : z = z' := by simpa [hz] using hz'
    refine congrArg some (Body.mapSrcs_congr fun s a ha => ?_)
    have hmem : (⟨j, s⟩ : Use) ∈ x.uses ↔ a = v := by
      rw [hf.mem_iff (v := v) (by simp [uses?, hx]), reads?_eq_some]
      constructor
      · rintro ⟨k, hk, -, hs⟩
        obtain rfl : z = k := by simpa [hz] using hk
        simpa [ha] using hs
      · rintro rfl
        exact ⟨z, hz, hr, ha⟩
    simp only [handOver, hmem]

theorem rename_of_condition {t : Terminator} {v w : ValueId} (h : t.condition? = some v) :
    t.rename (handOver v w) = t.withCondition w := by
  cases t with
  | branch c yes no =>
    obtain rfl : c = v := by simpa [Terminator.condition?] using h
    simp [Terminator.rename, Terminator.withCondition, handOver]
  | jump c => simp [Terminator.condition?] at h
  | ret => simp [Terminator.condition?] at h

theorem rename_of_not_condition {t : Terminator} {v w : ValueId} (h : t.condition? ≠ some v) :
    t.rename (handOver v w) = t := by
  cases t with
  | branch c yes no =>
    have hc : c ≠ v := by simpa [Terminator.condition?] using h
    simp [Terminator.rename, handOver, hc]
  | jump c => rfl
  | ret => rfl

theorem terminator?_replaceUses {v w : ValueId} (hf : f.Branches)
    (h : f.replaceUses v w = .ok g) (b : BlockId) :
    g.terminator? b = (f.terminator? b).map (·.rename (handOver v w)) := by
  obtain ⟨hne, x, y, hx, hy, -, rfl⟩ := replaceUses_eq_ok.mp h
  have hmem : b ∈ x.branchUses ↔ f.condition? b = some v := hf.mem_iff (by simp [branches?, hx])
  simp only [terminator?, mapValues, mapBlocks, blocks_redirect, Arena.get?_mapIds,
    condition?_eq] at hmem ⊢
  cases hb : f.blocks.get? b with
  | none => rfl
  | some z =>
    simp only [hb, Option.bind_some] at hmem
    by_cases hz : z.terminator.condition? = some v
    · simp [hmem, hz, rename_of_condition hz]
    · simp [hmem, hz, rename_of_not_condition hz]

theorem remove_isOk_of_unread {i : InstrId} {b : BlockId} (hf : f.Tidy) (hi : f.home? i = some b)
    (hd : ∀ v, f.dest? i = some v → f.uses? v = some [] ∧ f.branches? v = some []) :
    ∃ g, f.remove i = .ok g := by
  obtain ⟨x, hx, hr, -⟩ := home?_eq_some.mp hi
  refine remove_isOk hx hr ?_ ?_
  · intro v hv
    obtain ⟨hu, hb⟩ := hd v (by simp [dest?, hx, hv])
    obtain ⟨y, hy, hu⟩ := Option.map_eq_some_iff.mp hu
    obtain ⟨y', hy', hb⟩ := Option.map_eq_some_iff.mp hb
    obtain rfl : y = y' := by simpa [hy] using hy'
    exact ⟨y, hy, by simp [Value.isRead, hu, hb]⟩
  · intro s v hs
    have hread : f.reads? ⟨i, s⟩ = some v := reads?_eq_some.mpr ⟨x, hx, hr, hs⟩
    obtain ⟨y, hy⟩ := hasValue_iff.mp (hf.linked.sourced.hasValue_of_reads hread)
    exact ⟨y, hy, (hf.recorded.mem_iff (by simp [uses?, hy])).mpr hread⟩

theorem Terminator.rename_id (t : Terminator) : t.rename (fun v => v) = t := by
  cases t <;> rfl

theorem replaced_of_remove {i : InstrId} (hf : f.Placed) (h : f.remove i = .ok g) :
    Replaced f i (fun v => v) g := by
  obtain ⟨x, U, hx, hr, -, -, rfl⟩ := remove_ok h
  have hhome : f.home? i = some x.block := home?_eq_some.mpr ⟨x, hx, hr, rfl⟩
  refine ⟨?_, ?_, ?_, ?_, ?_, ?_, ?_⟩
  · intro j b _
    rw [body?_mapInstrs]
    · have hid : (fun b : Body => b.mapSrcs fun _ v => v) = id := by
        funext b
        exact b.mapSrcs_id
      rw [hid, Option.map_id]
      rfl
    · intro k z
      split <;> rfl
  · refine dest?_mapInstrs ?_
    intro k z
    split <;> rfl
  · exact shape?_mapValues fun _ _ => rfl
  · exact source?_mapValues fun _ _ => rfl
  · intro j
    exact home?_mapInstrs_removed _ i j
  · intro c
    simp only [blockInstrs, mapInstrs, mapBlocks, mapValues, Arena.get?_mapIds]
    have hfilter : (f.blockInstrs c).filter (· != i) =
        if c = x.block then (f.blockInstrs c).erase i else f.blockInstrs c := by
      by_cases hc : c = x.block
      · rw [if_pos hc, (hf.nodup c).erase_eq_filter]
      · rw [if_neg hc, List.filter_eq_self]
        intro j hj
        have hj := hf.mem_iff.mp hj
        have : j ≠ i := by
          rintro rfl
          rw [hhome] at hj
          exact hc (by simpa using hj.symm)
        simpa using this
    simp only [blockInstrs] at hfilter
    rw [hfilter]
    cases f.blocks.get? c with
    | none => simp
    | some y => by_cases hc : c = x.block <;> simp [hc]
  · intro c
    have hid : (fun t : Terminator => t.rename fun v => v) = id := by
      funext t
      exact Terminator.rename_id t
    rw [hid, Option.map_id]
    refine congrFun (terminator?_mapBlocks ?_) c
    intro b z
    split <;> rfl

theorem uses?_replaceUses_self {v w : ValueId} (h : f.replaceUses v w = .ok g) :
    g.uses? v = some [] ∧ g.branches? v = some [] := by
  obtain ⟨-, x, y, hx, -, -, rfl⟩ := replaceUses_eq_ok.mp h
  simp [uses?, branches?, mapValues, mapBlocks, hx]

/-- Handing the readers of an instruction's value over and taking the instruction out. -/
theorem replaced_of_replaceUses {v w : ValueId} {i : InstrId} {b : BlockId} (hf : f.Tidy)
    (hi : f.home? i = some b) (hd : f.dest? i = some v) (hne : v ≠ w) (hw : f.hasValue w) :
    ∃ k g, f.replaceUses v w = .ok k ∧ k.remove i = .ok g ∧ g.Tidy ∧
      Replaced f i (handOver v w) g := by
  have hv : f.hasValue v := by
    have hs := (hf.linked.defined.iff i v).mp hd
    obtain ⟨x, hx, -⟩ := Option.map_eq_some_iff.mp hs
    exact hasValue_iff.mpr ⟨x, hx⟩
  obtain ⟨k, hk⟩ := replaceUses_isOk hf.recorded hne hv hw
  have hkt : k.Tidy := hf.apply (e := .replaceUses v w) trivial hk
  have hviews : k.home? = f.home? ∧ k.dest? = f.dest? ∧ k.shape? = f.shape? ∧
      k.source? = f.source? ∧ k.blockInstrs = f.blockInstrs := by
    obtain ⟨-, x, y, -, -, -, rfl⟩ := replaceUses_eq_ok.mp hk
    refine ⟨home?_redirect f fun u a => if u ∈ x.uses then w else a,
      dest?_redirect f fun u a => if u ∈ x.uses then w else a, shape?_mapValues ?_,
      source?_mapValues ?_, blockInstrs_mapBlocks ?_⟩
    · intro a z
      split_ifs <;> rfl
    · intro a z
      split_ifs <;> rfl
    · intro c z
      split <;> rfl
  obtain ⟨hhome, hdest, hshape, hsource, hblocks⟩ := hviews
  obtain ⟨g, hg⟩ := remove_isOk_of_unread hkt (by rw [hhome, hi]) fun v' hv' => by
    obtain rfl : v = v' := by simpa [hdest, hd] using hv'
    exact uses?_replaceUses_self hk
  have hr := replaced_of_remove hkt.linked.placed hg
  refine ⟨k, g, hk, hg, hkt.apply (e := .remove i) trivial hg, ?_⟩
  refine ⟨?_, ?_, ?_, ?_, ?_, ?_, ?_⟩
  · intro j c hj
    rw [hr.body j c (by rw [hhome, hj]), body?_replaceUses hf.recorded hk hj]
    simp only [Option.map_map, Function.comp_def, Body.mapSrcs_mapSrcs]
  · rw [hr.dest, hdest]
  · rw [hr.shape, hshape]
  · rw [hr.source, hsource]
  · intro j
    rw [hr.home, hhome]
  · intro c
    rw [hr.blocks, hblocks]
  · intro c
    rw [hr.terminator, terminator?_replaceUses hf.linked.branches hk]
    simp only [Option.map_map, Function.comp_def, Terminator.rename_id]

theorem Replaced.reads {i : InstrId} {ρ : ValueId → ValueId} (hr : Replaced f i ρ g) (u : Use) :
    g.reads? u = if u.instr = i then none else (f.reads? u).map ρ := by
  by_cases hu : u.instr = i
  · simp [reads?, hr.home, hu]
  · cases hb : f.home? u.instr with
    | none => simp [reads?, hr.home, hu, hb]
    | some b =>
      have hsrcs : g.srcs? u.instr = (f.srcs? u.instr).map fun vs => vs.mapIdx fun _ => ρ := by
        have hbody := hr.body u.instr b hb
        simp only [body?, srcs?] at hbody ⊢
        cases hx : f.instrs.get? u.instr with
        | none => simpa [hx] using hbody
        | some x =>
          simp only [hx, Option.map_some, Option.map_eq_some_iff] at hbody
          obtain ⟨y, hy, hyb⟩ := hbody
          simp [hy, hyb, Body.srcs_mapSrcs]
      simp only [reads?, hr.home, hu, if_false, hb, Option.bind_some, hsrcs]
      cases f.srcs? u.instr <;> simp

theorem Replaced.condition {i : InstrId} {ρ : ValueId → ValueId} (hr : Replaced f i ρ g)
    (b : BlockId) : g.condition? b = (f.condition? b).map ρ := by
  simp only [condition?, hr.terminator]
  cases f.terminator? b with
  | none => rfl
  | some t => cases t <;> rfl

theorem Replaced.closed {i : InstrId} {ρ : ValueId → ValueId} (hr : Replaced f i ρ g)
    (hread : ∀ u v, u.instr ≠ i → f.reads? u = some v →
      f.Live (ρ v) ∧ f.source? (ρ v) ≠ some i)
    (hcond : ∀ b v, f.condition? b = some v → f.Live (ρ v) ∧ f.source? (ρ v) ≠ some i) :
    g.Closed := by
  have hlive : ∀ v, f.Live v → f.source? v ≠ some i → g.Live v := by
    rintro v ⟨j, b, hs, hh⟩ hne
    have hj : j ≠ i := by
      rintro rfl
      exact hne hs
    exact ⟨j, b, by rw [hr.source, hs], by rw [hr.home, if_neg hj, hh]⟩
  refine ⟨?_, ?_⟩
  · intro u w huw
    rw [hr.reads] at huw
    by_cases hu : u.instr = i
    · simp [hu] at huw
    · rw [if_neg hu, Option.map_eq_some_iff] at huw
      obtain ⟨v, hv, rfl⟩ := huw
      obtain ⟨hl, hs⟩ := hread u v hu hv
      exact hlive _ hl hs
  · intro b w hw
    rw [hr.condition, Option.map_eq_some_iff] at hw
    obtain ⟨v, hv, rfl⟩ := hw
    obtain ⟨hl, hs⟩ := hcond b v hv
    exact hlive _ hl hs

end Function

end ShaderSSA
