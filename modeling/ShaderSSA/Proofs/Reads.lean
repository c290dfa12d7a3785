import ShaderSSA.Proofs.Links

/-! Recorded reads. Slots are recorded in eight bits, so that the reads of an instruction are
recorded exactly as long as it has no more than 256 sources. -/

namespace ShaderSSA.Function

variable {f f' : Function}

/-- Sources are values, and the slots of recorded reads fit in eight bits; so nothing with more
than 256 sources can have been removed. -/
structure Sourced (f : Function) : Prop where
  known : ∀ i vs, f.srcs? i = some vs → ∀ v ∈ vs, f.hasValue v
  slot : ∀ v us, f.uses? v = some us → ∀ u ∈ us, u.slot < 256
  removed : ∀ i vs, f.home? i = none → f.srcs? i = some vs → vs.length ≤ 256

theorem Sourced.of_eq (hf : f.Sourced) (hv : ∀ v, f.hasValue v → f'.hasValue v)
    (hs : f'.srcs? = f.srcs?) (hu : f'.uses? = f.uses?) (hh : f'.home? = f.home?) :
    f'.Sourced := by
  refine ⟨?_, ?_, ?_⟩
  · rw [hs]
    exact fun i vs h v hm => hv v (hf.known i vs h v hm)
  · rw [hu]
    exact hf.slot
  · rw [hh, hs]
    exact hf.removed

theorem Sourced.redirect {g : Use → ValueId → ValueId} {gv : ValueId → Value → Value}
    (hf : f.Sourced) (hg : ∀ u v, f.hasValue v → f.hasValue (g u v))
    (hu : ∀ v x, f.values.get? v = some x → ∀ u ∈ (gv v x).uses, u.slot < 256) :
    ((f.mapValues gv).redirect g).Sourced := by
  refine ⟨?_, ?_, ?_⟩
  · intro i vs h v hm
    rw [srcs?_redirect] at h
    obtain ⟨ws, hws, rfl⟩ := Option.map_eq_some_iff.mp h
    obtain ⟨s, hs, rfl⟩ := List.mem_mapIdx.mp hm
    have hk := hg ⟨i, s⟩ _ (hf.known i ws hws _ (List.getElem_mem hs))
    simpa [hasValue, mapValues] using hk
  · intro v us h u hm
    simp only [uses?, values_redirect, mapValues, Arena.get?_mapIds, Option.map_map,
      Option.map_eq_some_iff] at h
    obtain ⟨x, hx, rfl⟩ := h
    exact hu v x hx u hm
  · intro i vs hh h
    rw [srcs?_redirect] at h
    obtain ⟨ws, hws, rfl⟩ := Option.map_eq_some_iff.mp h
    rw [List.length_mapIdx]
    rw [home?_redirect] at hh
    exact hf.removed i ws hh hws

theorem slot_ofSources {i : InstrId} {v : ValueId} {ps : List (ValueId × Nat)} {u : Use}
    (h : u ∈ Use.ofSources i v ps) : u.slot < 256 := by
  obtain ⟨p, -, hp⟩ := List.mem_filterMap.mp h
  split_ifs at hp
  obtain rfl : Use.record i p.2 = u := by simpa using hp
  exact Nat.mod_lt _ (by omega)

theorem Sourced.insert {c : Cursor} {body : Body} {dest : Option Shape} {i : InstrId}
    (hf : f.Sourced) (h : f.insert c body dest = .ok (i, f')) : f'.Sourced := by
  obtain ⟨b, pos, -, hsrc, -, -, -, rfl⟩ := insert_eq_ok.mp h
  refine ⟨?_, ?_, ?_⟩
  · intro j vs h v hm
    apply hasValue_inserted
    rw [srcs?_inserted] at h
    split_ifs at h
    · obtain rfl : body.srcs = vs := by simpa using h
      exact hsrc v hm
    · exact hf.known j vs h v hm
  · intro v us h u hm
    rw [uses?_inserted] at h
    split_ifs at h
    · obtain ⟨_, -, rfl⟩ := Option.map_eq_some_iff.mp h
      simp at hm
    · obtain ⟨ws, hws, rfl⟩ := Option.map_eq_some_iff.mp h
      rcases List.mem_append.mp hm with hm | hm
      · exact hf.slot v ws hws u hm
      · exact slot_ofSources hm
  · intro j vs hh h
    rw [home?_inserted] at hh
    rw [srcs?_inserted] at h
    split_ifs at hh h
    exact hf.removed j vs hh h

theorem mem_readers {i : InstrId} {w : ValueId} {srcs : List ValueId} {u : Use} :
    u ∈ srcs.zipIdx.filterMap (fun p => if p.1 = w then some (⟨i, p.2⟩ : Use) else none) ↔
      u.instr = i ∧ srcs[u.slot]? = some w := by
  simp only [List.mem_filterMap, Prod.exists, List.mem_zipIdx_iff_getElem?]
  constructor
  · rintro ⟨v, s, hv, h⟩
    split_ifs at h with hvw
    obtain rfl : (⟨i, s⟩ : Use) = u := by simpa using h
    exact ⟨rfl, hvw ▸ hv⟩
  · rintro ⟨rfl, h⟩
    exact ⟨w, u.slot, h, by simp⟩

theorem Sourced.remove {i : InstrId} (hf : f.Sourced) (h : f.remove i = .ok f') :
    f'.Sourced := by
  obtain ⟨x, U, hx, -, -, hU, rfl⟩ := remove_ok h
  have hs : ∀ j, (((f.mapValues fun w y => { y with uses := U w }).mapBlocks fun b y =>
      if b = x.block then { y with instrs := y.instrs.erase i } else y).mapInstrs
      fun j y => if j = i then { y with removed := true } else y).srcs? j = f.srcs? j := by
    refine congrFun (srcs?_mapInstrs ?_)
    intro j y
    split <;> rfl
  have hsub : ∀ w y, f.values.get? w = some y → ∀ u ∈ y.uses, u.slot < 256 :=
    fun w y hy => hf.slot w y.uses (by simp [uses?, hy])
  refine ⟨?_, ?_, ?_⟩
  · intro j vs h v hm
    rw [hs] at h
    simpa [hasValue, mapInstrs, mapBlocks, mapValues] using hf.known j vs h v hm
  · intro w us h u hm
    simp only [uses?, mapInstrs, mapBlocks, mapValues, Arena.get?_mapIds, Option.map_map,
      Option.map_eq_some_iff] at h
    obtain ⟨y, hy, rfl⟩ := h
    exact hsub w y hy u ((hU w y hy).mem_iff.mpr (List.mem_append_left _ hm))
  · intro j vs hh hvs
    rw [hs] at hvs
    rw [home?_mapInstrs_removed] at hh
    by_cases hj : j = i
    · subst hj
      obtain rfl : x.body.srcs = vs := by simpa [srcs?, hx] using hvs
      by_contra hlen
      have hlt : 256 < x.body.srcs.length := by omega
      obtain ⟨y, hy⟩ := hasValue_iff.mp (hf.known j _ (by simp [srcs?, hx]) _
        (List.getElem_mem hlt))
      have hm : (⟨j, 256⟩ : Use) ∈ y.uses :=
        (hU _ y hy).mem_iff.mpr (List.mem_append_right _ (mem_readers.mpr ⟨rfl, by simp [hlt]⟩))
      have := hsub _ y hy _ hm
      simp at this
    · rw [if_neg hj] at hh
      exact hf.removed j vs hh hvs

theorem srcs?_modifySwizzle {i : InstrId} {s : Nat} {e : Breach} {g : Swizzle → Checked Swizzle}
    (h : f.modifySwizzle i s e g = .ok f') : f'.srcs? = f.srcs? := by
  obtain ⟨x, a, o, w, hx, ha, -, -, rfl⟩ := modifySwizzle_eq_ok.mp h
  funext j
  simp only [srcs?, mapInstrs, Arena.get?_mapIds]
  by_cases hj : j = i
  · have he : (a.srcs.modify s fun o => { o with swizzle := w }).map (·.value) =
        a.srcs.map (·.value) := by
      apply List.ext_getElem?
      intro k
      simp only [List.getElem?_map, List.getElem?_modify]
      cases a.srcs[k]? with
      | none => simp
      | some o => by_cases hk : s = k <;> simp [hk]
    simp [hj, hx, ha, Body.srcs, he]
  · cases f.instrs.get? j <;> simp [hj]

theorem Sourced.change (hf : f.Sourced) (h : Change f f') : f'.Sourced := by
  cases h with
  | addBlock => exact hf.of_eq (fun _ hv => hv) rfl rfl rfl
  | setTerminator h =>
    obtain ⟨x, P, B, -, -, -, -, -, rfl⟩ := setTerminator_ok h
    exact hf.of_eq (fun v hv => by simpa [hasValue, flowChanged, mapValues, mapBlocks] using hv)
      rfl (uses?_mapValues fun _ _ => rfl) rfl
  | setCondition h =>
    obtain ⟨x, old, y, bs, -, -, -, -, -, rfl⟩ := setCondition_eq_ok.mp h
    rw [mapValues_mapValues]
    refine hf.of_eq (fun v hv => by simpa [hasValue, mapValues, mapBlocks] using hv)
      rfl (uses?_mapValues ?_) rfl
    intro w z
    split_ifs <;> rfl
  | insert h => exact hf.insert h
  | @replaceSource _ i slot v h =>
    obtain ⟨x, old, -, -, ⟨-, rfl⟩ | ⟨-, y, us, z, hy, hus, hz, rfl⟩⟩ := replaceSource_eq_ok.mp h
    · exact hf
    · refine hf.redirect ?_ ?_
      · intro u w hw
        split
        · exact hasValue_iff.mpr ⟨z, hz⟩
        · exact hw
      · intro w k hk u hm
        obtain ⟨a, -, hperm⟩ := swapErase?_perm hus
        split_ifs at hm with h1 h2
        · exact hf.slot old y.uses (by simp [uses?, hy]) u
            (hperm.mem_iff.mpr (List.mem_cons_of_mem _ hm))
        · rcases List.mem_append.mp hm with hm | hm
          · exact hf.slot w k.uses (by simp [uses?, hk]) u hm
          · obtain rfl : u = Use.record i slot := by simpa using hm
            exact Nat.mod_lt _ (by omega)
        · exact hf.slot w k.uses (by simp [uses?, hk]) u hm
  | modifySwizzle h =>
    have hs := srcs?_modifySwizzle h
    obtain ⟨x, a, o, w, hx, ha, -, -, rfl⟩ := modifySwizzle_eq_ok.mp h
    refine hf.of_eq (fun _ hv => hv) hs rfl (home?_mapInstrs ?_ ?_)
    · intro j z
      split <;> rfl
    · intro j z
      split <;> rfl
  | @replaceUses _ old new h =>
    obtain ⟨-, x, y, hx, hy, -, rfl⟩ := replaceUses_eq_ok.mp h
    have hh : ((f.mapValues fun w z => if w = old then { z with uses := [], branchUses := [] }
        else if w = new then { z with
          uses := z.uses ++ x.uses, branchUses := z.branchUses ++ x.branchUses } else z).redirect
        fun u w => if u ∈ x.uses then new else w).Sourced := by
      refine hf.redirect ?_ ?_
      · intro u w hw
        split
        · exact hasValue_iff.mpr ⟨y, hy⟩
        · exact hw
      · intro w z hz u hm
        split_ifs at hm with h1 h2
        · simp at hm
        · rcases List.mem_append.mp hm with hm | hm
          · exact hf.slot w z.uses (by simp [uses?, hz]) u hm
          · exact hf.slot old x.uses (by simp [uses?, hx]) u hm
        · exact hf.slot w z.uses (by simp [uses?, hz]) u hm
    exact hh.of_eq (fun _ hv => hv) rfl rfl rfl
  | remove h => exact hf.remove h
  | analyses d m hd hm => exact hf.of_eq (fun _ hv => hv) rfl rfl rfl

def Small (f : Function) : Prop := ∀ i vs, f.srcs? i = some vs → vs.length ≤ 256

theorem length_srcs_change (h : Change f f') {i : InstrId} {vs : List ValueId}
    (hvs : f.srcs? i = some vs) : ∃ vs', f'.srcs? i = some vs' ∧ vs'.length = vs.length := by
  cases h with
  | addBlock => exact ⟨vs, hvs, rfl⟩
  | setTerminator h =>
    obtain ⟨x, P, B, -, -, -, -, -, rfl⟩ := setTerminator_ok h
    exact ⟨vs, hvs, rfl⟩
  | setCondition h =>
    obtain ⟨x, old, y, bs, -, -, -, -, -, rfl⟩ := setCondition_eq_ok.mp h
    exact ⟨vs, hvs, rfl⟩
  | insert h =>
    obtain ⟨b, pos, -, -, -, -, -, rfl⟩ := insert_eq_ok.mp h
    have hi : i ≠ ⟨f.instrs.size⟩ := by
      rintro rfl
      simp [srcs?, Arena.get?_size] at hvs
    exact ⟨vs, by rw [srcs?_inserted, if_neg hi, hvs], rfl⟩
  | replaceSource h =>
    obtain ⟨x, old, -, -, ⟨-, rfl⟩ | ⟨-, y, us, z, -, -, -, rfl⟩⟩ := replaceSource_eq_ok.mp h
    · exact ⟨vs, hvs, rfl⟩
    · have hvs' : ∀ gv, (f.mapValues gv).srcs? i = some vs := fun _ => hvs
      exact ⟨_, by rw [srcs?_redirect, hvs', Option.map_some], by simp⟩
  | modifySwizzle h => exact ⟨vs, by rw [srcs?_modifySwizzle h, hvs], rfl⟩
  | @replaceUses _ old new h =>
    obtain ⟨-, x, y, -, -, -, rfl⟩ := replaceUses_eq_ok.mp h
    have hr := srcs?_redirect f (fun u w => if u ∈ x.uses then new else w) i
    rw [hvs, Option.map_some] at hr
    exact ⟨_, hr, by simp⟩
  | @remove _ i h =>
    obtain ⟨x, U, -, -, -, -, rfl⟩ := remove_ok h
    refine ⟨vs, ?_, rfl⟩
    rw [srcs?_mapInstrs]
    · exact hvs
    · intro j z
      split <;> rfl
  | analyses d m hd hm => exact ⟨vs, hvs, rfl⟩

/-- The slots of `i` fit in eight bits. -/
def SmallAt (f : Function) (i : InstrId) : Prop := ∀ vs, f.srcs? i = some vs → vs.length ≤ 256

theorem SmallAt.of_change {i : InstrId} (h : Change f f') (hs : f'.SmallAt i) : f.SmallAt i := by
  intro vs hvs
  obtain ⟨vs', hvs', hlen⟩ := length_srcs_change h hvs
  rw [← hlen]
  exact hs vs' hvs'

/-- Every read is recorded once at the value that is read. -/
def Recorded (f : Function) : Prop :=
  ∀ u v us, f.uses? v = some us → us.count u = if f.reads? u = some v then 1 else 0

/-- Every read by `i` is. -/
def RecordedBy (f : Function) (i : InstrId) : Prop :=
  ∀ s v us, f.uses? v = some us → us.count ⟨i, s⟩ = if f.reads? ⟨i, s⟩ = some v then 1 else 0

theorem count_readers (i : InstrId) (w : ValueId) (srcs : List ValueId) (u : Use) :
    (srcs.zipIdx.filterMap fun p => if p.1 = w then some (⟨i, p.2⟩ : Use) else none).count u =
      if u.instr = i ∧ srcs[u.slot]? = some w then 1 else 0 := by
  have hnd : (srcs.zipIdx.filterMap fun p =>
      if p.1 = w then some (⟨i, p.2⟩ : Use) else none).Nodup := by
    refine List.Nodup.filterMap ?_ (List.Nodup.of_map (·.2) ?_)
    · rintro ⟨a, s⟩ ⟨b, t⟩ u ha hb
      split_ifs at ha hb with h1 h2
      · obtain rfl : (⟨i, s⟩ : Use) = u := by simpa using ha
        obtain rfl : t = s := by simpa using hb
        simp_all
      all_goals simp_all
    · simpa [List.zipIdx_map_snd] using List.nodup_range'
  by_cases hm : u.instr = i ∧ srcs[u.slot]? = some w
  · rw [if_pos hm, List.count_eq_one_of_mem hnd (mem_readers.mpr hm)]
  · rw [if_neg hm, List.count_eq_zero_of_not_mem (fun hh => hm (mem_readers.mp hh))]

theorem ofSources_eq {i : InstrId} {w : ValueId} {srcs : List ValueId} (h : srcs.length ≤ 256) :
    Use.ofSources i w srcs.zipIdx =
      srcs.zipIdx.filterMap fun p => if p.1 = w then some ⟨i, p.2⟩ else none := by
  refine List.filterMap_congr fun p hp => ?_
  have hlt : p.2 < srcs.length := by
    have := List.snd_lt_of_mem_zipIdx hp
    omega
  rw [Use.record, Nat.mod_eq_of_lt (by omega)]

theorem RecordedBy.of_eq {i : InstrId} (hf : f.RecordedBy i) (hu : f'.uses? = f.uses?)
    (hr : f'.reads? = f.reads?) : f'.RecordedBy i := by
  intro s v us h
  rw [hr]
  exact hf s v us (by rw [← hu, h])

theorem RecordedBy.mem_iff {i : InstrId} (hf : f.RecordedBy i) {s : Nat} {v : ValueId}
    {us : List Use} (h : f.uses? v = some us) : ⟨i, s⟩ ∈ us ↔ f.reads? ⟨i, s⟩ = some v := by
  rw [← List.count_pos_iff, hf s v us h]
  split <;> simp_all

theorem Recorded.mem_iff (hf : f.Recorded) {u : Use} {v : ValueId} {us : List Use}
    (h : f.uses? v = some us) : u ∈ us ↔ f.reads? u = some v := by
  rw [← List.count_pos_iff, hf u v us h]
  split <;> simp_all

theorem Recorded.nodup (hf : f.Recorded) {v : ValueId} {us : List Use} (h : f.uses? v = some us) :
    us.Nodup := by
  refine List.nodup_iff_count_le_one.mpr fun u => ?_
  rw [hf u v us h]
  split <;> omega

theorem reads?_congr (hh : f'.home? = f.home?) (hs : f'.srcs? = f.srcs?) :
    f'.reads? = f.reads? := by
  funext u
  simp only [reads?, hh, hs]

theorem Sourced.hasValue_of_reads (hf : f.Sourced) {u : Use} {v : ValueId}
    (h : f.reads? u = some v) : f.hasValue v := by
  obtain ⟨x, hx, -, hv⟩ := reads?_eq_some.mp h
  exact hf.known u.instr x.body.srcs (by simp [srcs?, hx]) v (List.mem_of_getElem? hv)

theorem reads?_inserted (f : Function) (b : BlockId) (pos : Nat) (body : Body)
    (dest : Option Shape) (u : Use) : (f.inserted b pos body dest).reads? u =
      if u.instr = ⟨f.instrs.size⟩ then body.srcs[u.slot]? else f.reads? u := by
  simp only [reads?, home?_inserted, srcs?_inserted]
  split <;> simp

theorem RecordedBy.insert {c : Cursor} {body : Body} {dest : Option Shape} {i n : InstrId}
    (hf : f.RecordedBy i) (hk : f.Sourced) (h : f.insert c body dest = .ok (n, f'))
    (hs : i = n → body.srcs.length ≤ 256) : f'.RecordedBy i := by
  obtain ⟨b, pos, -, hsrc, -, -, rfl, rfl⟩ := insert_eq_ok.mp h
  intro s v us hus
  rw [uses?_inserted] at hus
  rw [reads?_inserted]
  have hnew : ¬ f.hasValue ⟨f.values.size⟩ := by simp [hasValue, Arena.get?_size]
  by_cases hv : v = ⟨f.values.size⟩
  · rw [if_pos hv] at hus
    obtain ⟨_, -, rfl⟩ := Option.map_eq_some_iff.mp hus
    have hn : (if i = ⟨f.instrs.size⟩ then body.srcs[s]? else f.reads? ⟨i, s⟩) ≠ some v := by
      subst hv
      split_ifs
      · exact fun hh => hnew (hsrc _ (List.mem_of_getElem? hh))
      · exact fun hh => hnew (hk.hasValue_of_reads hh)
    rw [if_neg hn, List.count_nil]
  · rw [if_neg hv] at hus
    obtain ⟨ws, hws, rfl⟩ := Option.map_eq_some_iff.mp hus
    rw [List.count_append, hf s v ws hws]
    by_cases hi : i = ⟨f.instrs.size⟩
    · have hn : f.reads? ⟨i, s⟩ = none := by simp [reads?, home?, hi, Arena.get?_size]
      rw [ofSources_eq (hs hi), count_readers, hn]
      simp [hi]
    · have hother : (⟨i, s⟩ : Use) ∉ Use.ofSources ⟨f.instrs.size⟩ v body.srcs.zipIdx := by
        intro hm
        obtain ⟨p, -, hp⟩ := List.mem_filterMap.mp hm
        split at hp
        · exact hi (by simpa [Use.record] using (congrArg Use.instr (Option.some.inj hp)).symm)
        · cases hp
      rw [List.count_eq_zero_of_not_mem hother]
      simp [hi]

theorem RecordedBy.replaceSource {i j : InstrId} {s : Nat} {v : ValueId} (hf : f.RecordedBy i)
    (hk : f.Sourced) (h : f.replaceSource j s v = .ok f') : f'.RecordedBy i := by
  obtain ⟨x, old, hx, hold, ⟨-, rfl⟩ | ⟨hne, y, us, z, hy, hus, hz, rfl⟩⟩ :=
    replaceSource_eq_ok.mp h
  · exact hf
  obtain ⟨a, ha, hperm⟩ := swapErase?_perm hus
  obtain rfl : a = ⟨j, s⟩ := by simpa using ha
  have hmem : (⟨j, s⟩ : Use) ∈ y.uses := hperm.mem_iff.mpr List.mem_cons_self
  have hslot : s < 256 := hk.slot old y.uses (by simp [uses?, hy]) _ hmem
  have hrec : Use.record j s = ⟨j, s⟩ := by rw [Use.record, Nat.mod_eq_of_lt hslot]
  intro r w ws hws
  rw [reads?_redirect]
  have hr : ∀ gv, (f.mapValues gv).reads? ⟨i, r⟩ = f.reads? ⟨i, r⟩ := fun _ => rfl
  rw [hr]
  simp only [uses?, values_redirect, mapValues, Arena.get?_mapIds, Option.map_map,
    Option.map_eq_some_iff] at hws
  obtain ⟨k, hkw, rfl⟩ := hws
  have hcount := hf r w k.uses (by simp [uses?, hkw])
  by_cases hu : (⟨i, r⟩ : Use) = ⟨j, s⟩
  · obtain ⟨rfl, rfl⟩ := Use.mk.inj hu
    have hread : f.reads? ⟨i, r⟩ = some old := (hf.mem_iff (by simp [uses?, hy])).mp hmem
    rw [hread] at hcount ⊢
    by_cases hwo : w = old
    · subst hwo
      obtain rfl : y = k := by simpa [hy] using hkw
      rw [hperm.count_eq] at hcount
      simp_all [Ne.symm hne]
    · by_cases hwv : w = v
      · simp_all
      · simp_all [Ne.symm hwo, Ne.symm hwv]
  · have hmap : (f.reads? ⟨i, r⟩).map (fun w => if (⟨i, r⟩ : Use) = ⟨j, s⟩ then v else w) =
        f.reads? ⟨i, r⟩ := by
      simp only [if_neg hu, Option.map_id']
    rw [hmap, ← hcount]
    by_cases hwo : w = old
    · subst hwo
      obtain rfl : y = k := by simpa [hy] using hkw
      rw [hperm.count_eq, List.count_cons_of_ne (Ne.symm hu)]
      simp
    · by_cases hwv : w = v
      · have hother : ([⟨j, s⟩] : List Use).count ⟨i, r⟩ = 0 :=
          List.count_eq_zero_of_not_mem (by rw [List.mem_singleton]; exact hu)
        subst hwv
        simp only [Function.comp, hwo, if_false, if_true, hrec, List.count_append, hother,
          Nat.add_zero]
      · simp [hwo, hwv]

theorem RecordedBy.replaceUses {i : InstrId} {old new : ValueId} (hf : f.RecordedBy i)
    (h : f.replaceUses old new = .ok f') : f'.RecordedBy i := by
  obtain ⟨hne, x, y, hx, hy, -, rfl⟩ := replaceUses_eq_ok.mp h
  intro s w us hus
  have hmem : (⟨i, s⟩ : Use) ∈ x.uses ↔ f.reads? ⟨i, s⟩ = some old :=
    hf.mem_iff (by simp [uses?, hx])
  have hr : ∀ gb gv, (((f.redirect fun u w => if u ∈ x.uses then new else w).mapBlocks
      gb).mapValues gv).reads? ⟨i, s⟩ =
      if f.reads? ⟨i, s⟩ = some old then some new else f.reads? ⟨i, s⟩ := by
    intro gb gv
    have hr := reads?_redirect f (fun u w => if u ∈ x.uses then new else w) ⟨i, s⟩
    refine Eq.trans hr ?_
    by_cases hu : f.reads? ⟨i, s⟩ = some old
    · simp [hmem, hu]
    · simp [hmem, hu]
  rw [hr]
  simp only [uses?, mapValues, mapBlocks, values_redirect, Arena.get?_mapIds, Option.map_map,
    Option.map_eq_some_iff] at hus
  obtain ⟨k, hk, rfl⟩ := hus
  have hk' := hf s w k.uses (by simp [uses?, hk])
  have hx' := hf s old x.uses (by simp [uses?, hx])
  by_cases hwo : w = old
  · subst hwo
    by_cases hu : f.reads? ⟨i, s⟩ = some w
    · simp [hu, hne.symm]
    · simp [hu]
  · by_cases hwn : w = new
    · subst hwn
      simp only [Function.comp, hwo, if_false, if_true, List.count_append, hk', hx']
      by_cases hu : f.reads? ⟨i, s⟩ = some old
      · simp [hu, hne]
      · simp [hu]
    · simp only [Function.comp, hwo, hwn, if_false, hk']
      by_cases hu : f.reads? ⟨i, s⟩ = some old
      · simp [hu, Ne.symm hwo, Ne.symm hwn]
      · simp [hu]

theorem RecordedBy.remove {i j : InstrId} (hf : f.RecordedBy i) (h : f.remove j = .ok f') :
    f'.RecordedBy i := by
  obtain ⟨x, U, hx, hr, -, hU, rfl⟩ := remove_ok h
  intro s w us hus
  have hreads : ∀ gv gb, (((f.mapValues gv).mapBlocks gb).mapInstrs
      fun k y => if k = j then { y with removed := true } else y).reads? ⟨i, s⟩ =
      if i = j then none else f.reads? ⟨i, s⟩ := by
    intro gv gb
    have hs : (((f.mapValues gv).mapBlocks gb).mapInstrs
        fun k y => if k = j then { y with removed := true } else y).srcs? = f.srcs? := by
      refine srcs?_mapInstrs ?_
      intro k z
      split <;> rfl
    simp only [reads?, hs, home?_mapInstrs_removed]
    split
    · rfl
    · rfl
  rw [hreads]
  simp only [uses?, mapValues, mapBlocks, mapInstrs, Arena.get?_mapIds, Option.map_map,
    Option.map_eq_some_iff] at hus
  obtain ⟨k, hk, rfl⟩ := hus
  have hcount := hf s w k.uses (by simp [uses?, hk])
  rw [(hU w k hk).count_eq, List.count_append, count_readers] at hcount
  have hread : i = j → f.reads? ⟨i, s⟩ = x.body.srcs[s]? := by
    rintro rfl
    simp [reads?, home?, srcs?, hx, hr]
  by_cases hi : i = j
  · rw [hread hi] at hcount
    simp only [hi, true_and, Function.comp, if_true] at hcount ⊢
    simp
    omega
  · simpa [hi] using hcount

theorem RecordedBy.change {i : InstrId} (hf : f.RecordedBy i) (hk : f.Sourced) (h : Change f f')
    (hs : f'.SmallAt i) : f'.RecordedBy i := by
  cases h with
  | addBlock => exact hf.of_eq rfl rfl
  | setTerminator h =>
    obtain ⟨x, P, B, -, -, -, -, -, rfl⟩ := setTerminator_ok h
    exact hf.of_eq (uses?_mapValues fun _ _ => rfl) rfl
  | setCondition h =>
    obtain ⟨x, old, y, bs, -, -, -, -, -, rfl⟩ := setCondition_eq_ok.mp h
    rw [mapValues_mapValues]
    refine hf.of_eq (uses?_mapValues ?_) rfl
    intro w z
    split_ifs <;> rfl
  | @insert _ c body dest n h =>
    refine hf.insert hk h fun hi => hs body.srcs ?_
    obtain ⟨b, pos, -, -, -, -, rfl, rfl⟩ := insert_eq_ok.mp h
    rw [srcs?_inserted, if_pos hi]
  | replaceSource h => exact hf.replaceSource hk h
  | modifySwizzle h =>
    have hsrc := srcs?_modifySwizzle h
    obtain ⟨x, a, o, w, hx, ha, -, -, rfl⟩ := modifySwizzle_eq_ok.mp h
    refine hf.of_eq rfl (reads?_congr (home?_mapInstrs ?_ ?_) hsrc)
    · intro j z
      split <;> rfl
    · intro j z
      split <;> rfl
  | replaceUses h => exact hf.replaceUses h
  | remove h => exact hf.remove h
  | analyses d m hd hm => exact hf.of_eq rfl rfl

end ShaderSSA.Function
