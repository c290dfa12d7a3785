import ShaderSSA.Proofs.Rewriting

/-! Readers that turn to another value: one source of an instruction, with the lanes selected from
it, or the condition of a branch. Nothing else of the function changes. -/

namespace ShaderSSA.Function

variable {f g k : Function} {j : InstrId} {body body' : Body} {u : Use} {v old : ValueId}

/-- `g` is `f` in which `j` has another body. -/
structure Rebodied (f : Function) (j : InstrId) (body : Body) (g : Function) : Prop
    extends Reshaped f g where
  body : ∀ i, g.body? i = if i = j then some body else f.body? i
  terminator : g.terminator? = f.terminator?

theorem Rebodied.trans (h : Rebodied f j body g) (h' : Rebodied g j body' k) :
    Rebodied f j body' k where
  dest := h'.dest.trans h.dest
  shape := h'.shape.trans h.shape
  source := h'.source.trans h.source
  home := h'.home.trans h.home
  blocks := h'.blocks.trans h.blocks
  flow b := (h'.flow b).trans (h.flow b)
  body i := by
    rw [h'.body, h.body]
    split <;> rfl
  terminator := h'.terminator.trans h.terminator

theorem Rebodied.reads_other (h : Rebodied f j body g) (hu : u.instr ≠ j) :
    g.reads? u = f.reads? u := by
  simp only [reads?, srcs?_eq_map, h.home, h.body, if_neg hu]

theorem Rebodied.reads_self {b : BlockId} (h : Rebodied f j body g) (hj : f.home? j = some b)
    (s : Nat) : g.reads? ⟨j, s⟩ = body.srcs[s]? := by
  simp [reads?, srcs?_eq_map, h.home, hj, h.body]

theorem Rebodied.condition (h : Rebodied f j body g) : g.condition? = f.condition? := by
  funext c
  simp only [condition?, h.terminator]

theorem replaceSource_ok (hf : f.Tidy) (hu : f.reads? u = some old)
    (hbody : f.body? u.instr = some body) (hne : old ≠ v) (hv : f.hasValue v) :
    ∃ g, f.replaceSource u.instr u.slot v = .ok g ∧ g.Tidy ∧
      Rebodied f u.instr (body.mapSrcs fun s w => if s = u.slot then v else w) g := by
  obtain ⟨x, hx, -, hsrc⟩ := reads?_eq_some.mp hu
  obtain ⟨y, hy⟩ := hasValue_iff.mp (hf.linked.sourced.hasValue_of_reads hu)
  obtain ⟨z, hz⟩ := hasValue_iff.mp hv
  have hmem : u ∈ y.uses := (hf.recorded.mem_iff (by simp [uses?, hy])).mpr hu
  obtain ⟨uses, huses⟩ : ∃ uses, swapErase? (· == u) y.uses = some uses := by
    cases hs : swapErase? (· == u) y.uses with
    | none => simpa using swapErase?_eq_none_iff.mp hs u hmem
    | some uses => exact ⟨uses, rfl⟩
  have hok := replaceSource_eq_ok.mpr ⟨x, old, hx, hsrc, .inr ⟨hne, y, uses, z, hy, huses, hz, rfl⟩⟩
  refine ⟨_, hok, hf.apply (e := .replaceSource u.instr u.slot v) trivial hok, ?_⟩
  refine ⟨⟨?_, ?_, ?_, ?_, rfl, fun _ => rfl⟩, fun i => ?_, rfl⟩
  · rw [dest?_redirect]
    rfl
  · refine shape?_mapValues fun w x => ?_
    split_ifs <;> rfl
  · refine source?_mapValues fun w x => ?_
    split_ifs <;> rfl
  · rw [home?_redirect]
    rfl
  · rw [body?_redirect]
    by_cases hi : i = u.instr
    · subst hi
      have hsame : ∀ s : Nat, (⟨u.instr, s⟩ : Use) = ⟨u.instr, u.slot⟩ ↔ s = u.slot := by
        intro s
        simp
      simp only [if_true, hsame]
      exact congrArg (Option.map _) hbody
    · have hne' : ∀ s : Nat, (⟨i, s⟩ : Use) ≠ ⟨u.instr, u.slot⟩ := by
        intro s hs
        exact hi (congrArg Use.instr hs)
      simp only [hi, if_false, hne', Body.mapSrcs_id, Option.map_id']
      rfl

theorem modifySwizzle_ok (shift : Swizzle → Checked Swizzle) (hf : f.Tidy) {a : Alu} {s : Nat}
    {o : Operand} {w : Swizzle} {e : Breach} (hbody : f.body? j = some (.alu a))
    (ho : a.srcs[s]? = some o) (hw : shift o.swizzle = .ok w) :
    ∃ g, f.modifySwizzle j s e shift = .ok g ∧ g.Tidy ∧
      Rebodied f j (.alu ⟨a.op, a.srcs.set s ⟨o.value, w⟩⟩) g := by
  obtain ⟨x, hx, hxa⟩ := Option.map_eq_some_iff.mp hbody
  have hok : f.modifySwizzle j s e shift = .ok _ :=
    modifySwizzle_eq_ok.mpr ⟨x, a, o, w, hx, hxa, ho, hw, rfl⟩
  have hset : f.setSwizzle j s w = .ok _ :=
    modifySwizzle_eq_ok.mpr ⟨x, a, o, w, hx, hxa, ho, rfl, rfl⟩
  have hmod : a.srcs.modify s (fun o => { o with swizzle := w }) = a.srcs.set s ⟨o.value, w⟩ := by
    apply List.ext_getElem?
    intro k
    rw [List.getElem?_modify, List.getElem?_set]
    by_cases hk : s = k
    · subst hk
      obtain ⟨hlt, rfl⟩ := List.getElem?_eq_some_iff.mp ho
      simp [hlt]
    · simp [hk]
  refine ⟨_, hok, hf.apply (e := .setSwizzle j s w) trivial hset, ?_⟩
  refine ⟨⟨?_, rfl, rfl, ?_, rfl, fun _ => rfl⟩, fun i => ?_, rfl⟩
  · refine dest?_mapInstrs fun i x => ?_
    split <;> rfl
  · refine home?_mapInstrs (fun i x => ?_) fun i x => ?_
    · split <;> rfl
    · split <;> rfl
  · simp only [body?, mapInstrs, Arena.get?_mapIds, hmod]
    by_cases hi : i = j
    · simp [hi, hx]
    · simp [hi]

theorem Rebodied.arithmetic (h : Rebodied f j body' g) (hbody : f.body? j = some body)
    (halu : body'.alu?.isSome = body.alu?.isSome) (v : ValueId) :
    g.Arithmetic v ↔ f.Arithmetic v := by
  have hsome : ∀ x : Body, (∃ a, x = .alu a) ↔ x.alu?.isSome := by
    intro x
    cases x <;> simp [Body.alu?]
  refine exists_congr fun d => ?_
  rw [h.source, exists_and_left, exists_and_left, h.body]
  refine and_congr_right fun _ => ?_
  by_cases hd : d = j
  · simp only [hd, if_true, hbody, Option.some.injEq, hsome, halu]
  · rw [if_neg hd]

theorem Rebodied.keeps_alu {a a' : Alu} (h : Rebodied f j (.alu a') g) (hf : f.Sourced)
    (hbody : f.body? j = some (.alu a)) : f.Keeps g := by
  refine .of_same hf (by simp [h.shape]) (fun v _ _ => h.arithmetic hbody rfl v)
    (fun i b x hi hx halu => ?_) fun i b x hi hx halu => ?_
  · have hij : i ≠ j := by
      rintro rfl
      obtain rfl := Option.some.inj (hbody.symm.trans hx)
      cases halu
    exact ⟨by rw [h.home, hi], by rw [h.dest], by rw [h.body, if_neg hij, hx]⟩
  · rw [h.body] at hx
    split at hx
    · obtain rfl := Option.some.inj hx
      cases halu
    · exact ⟨by rw [← h.home, hi], hx⟩

theorem Rebodied.keeps_other {ρ : Nat → ValueId → ValueId} (h : Rebodied f j (body.mapSrcs ρ) g)
    (hf : f.Sourced) (hbody : f.body? j = some body) (hnone : body.alu? = none)
    (hρ : ∀ s v, body.srcs[s]? = some v → f.Follows f v (ρ s v)) : f.Keeps g := by
  have halu : (body.mapSrcs ρ).alu? = body.alu? := Body.alu?_mapSrcs_of_none hnone
  have harith := h.arithmetic hbody (by rw [halu])
  refine ⟨by simp [h.shape], fun v _ _ => harith v, fun i b x hi hx _ => ?_,
    fun i b x hi hx hx' => ?_⟩
  · refine ⟨by rw [h.home, hi], by rw [h.dest], ?_⟩
    by_cases hij : i = j
    · subst hij
      obtain rfl := Option.some.inj (hbody.symm.trans hx)
      refine ⟨ρ, by rw [h.body, if_pos rfl], fun s v hv => ?_⟩
      obtain ⟨hshape, hcomputed⟩ := hρ s v hv
      exact ⟨by rwa [h.shape], hcomputed.imp_right fun hc => ⟨hc.1, (harith _).mpr hc.2⟩⟩
    · refine ⟨fun _ v => v, by rw [h.body, if_neg hij, hx, Body.mapSrcs_id], fun s v hv => ?_⟩
      have hvs : f.srcs? i = some x.srcs := by rw [srcs?_eq_map, hx, Option.map_some]
      obtain ⟨⟨t, ht, -⟩, -⟩ := Follows.refl (hf.known i _ hvs v (List.mem_of_getElem? hv))
      exact ⟨⟨t, ht, by rw [h.shape, ht]⟩, .inl rfl⟩
  · rw [h.body] at hx
    split at hx
    · rename_i hij
      exact ⟨body, by rw [← h.home, hi], by rw [hij, hbody], hnone⟩
    · exact ⟨x, by rw [← h.home, hi], hx, hx'⟩

theorem Rebodied.verified (h : Rebodied f j body g) (hf : f.Verified)
    (hfits : f.BodyFits (f.destShape? j) body) (hlive : ∀ w ∈ body.srcs, f.Live w) :
    g.Verified := by
  refine h.toReshaped.verified (fun u v hv => ?_) (fun c v hv => ?_) fun i b x hi hx => ?_
  · by_cases hu : u.instr = j
    · exact hlive v (List.mem_of_getElem? (srcs_of_reads hv (by rw [h.body, if_pos hu])))
    · rw [h.reads_other hu] at hv
      exact hf.closed.source u v hv
  · rw [h.condition] at hv
    exact hf.closed.condition c v hv
  · rw [h.body] at hx
    split at hx
    · rename_i hij
      obtain rfl := Option.some.inj hx
      exact hij ▸ hfits
    · exact hf.fits i b x hi hx

/-- A body that does the same in every state that comes to it. -/
theorem Rebodied.evolves [FloatOps] (h : Rebodied f j body' g) (hf : f.Ssa) (hg : g.Tidy)
    (hk : f.Keeps g) (hbody : f.body? j = some body) (hfits : f.BodyFits (f.destShape? j) body')
    (hlive : ∀ w ∈ body'.srcs, f.Live w)
    (hoperand : ∀ c done rest w, f.blocks.Reachable c → f.blockInstrs c = done ++ j :: rest →
      w ∈ body'.srcs → ∃ d, f.source? w = some d ∧ f.Before d c done)
    (heffect : ∀ vars io c done rest e r, Arrives f vars io c done e →
      f.blockInstrs c = done ++ j :: rest → e.effect vars (f.destShape? j) body = some r →
      e.effect vars (f.destShape? j) body' = some r) : Evolves f g := by
  refine h.toReshaped.evolves hg (h.verified hf.verified hfits hlive) hk ?_ ?_ ?_ ?_
  · intro c done i rest s w hr hc hread
    by_cases hij : i = j
    · subst hij
      have hmem := List.mem_of_getElem? (srcs_of_reads hread (by rw [h.body, if_pos rfl]))
      exact hoperand c done rest w hr hc hmem
    · rw [h.reads_other (u := ⟨i, s⟩) hij] at hread
      exact hf.dominance.operand c done i rest s w hr hc hread
  · intro c w hr hw
    rw [h.condition] at hw
    exact hf.dominance.condition c w hr hw
  · intro vars io c done i rest e e₁ ha hc hs
    have hshape : g.destShape? i = f.destShape? i := by simp only [destShape?, h.dest, h.shape]
    by_cases hij : i = j
    · subst hij
      simp only [step?, hbody, Option.bind_some, Option.map_eq_some_iff] at hs
      obtain ⟨r, hr, rfl⟩ := hs
      simp only [step?, h.body, if_true, Option.bind_some, hshape, h.dest,
        heffect vars io c done rest e r ha hc hr, Option.map_some]
    · simpa only [step?, h.body, if_neg hij, hshape, h.dest] using hs
  · intro vars io c t e n _ ht hn
    exact ⟨t, by rw [h.terminator, ht], hn⟩

/-- `g` is `f` in which the branch that ends `b` tests `v`. -/
structure Retested (f : Function) (b : BlockId) (v : ValueId) (g : Function) : Prop
    extends Reshaped f g where
  body : g.body? = f.body?
  terminator : ∀ c, g.terminator? c =
    if c = b then (f.terminator? c).map (·.withCondition v) else f.terminator? c

variable {b : BlockId}

theorem setCondition_ok (hf : f.Tidy) (hb : f.condition? b = some old) (hv : f.hasValue v) :
    ∃ g, f.setCondition b v = .ok g ∧ g.Tidy ∧ Retested f b v g := by
  obtain ⟨t, ht, hold⟩ := Option.bind_eq_some_iff.mp hb
  obtain ⟨x, hx, rfl⟩ := Option.map_eq_some_iff.mp ht
  obtain ⟨y, hy⟩ := hasValue_iff.mp (hf.linked.branches.known b old hb)
  have hmem : b ∈ y.branchUses :=
    (hf.linked.branches.mem_iff (by simp [branches?, hy])).mpr hb
  obtain ⟨bs, hbs⟩ : ∃ bs, swapErase? (· == b) y.branchUses = some bs := by
    cases hs : swapErase? (· == b) y.branchUses with
    | none => simpa using swapErase?_eq_none_iff.mp hs b hmem
    | some bs => exact ⟨bs, rfl⟩
  have hok := setCondition_eq_ok.mpr
    ⟨x, old, y, bs, hx, hold, hy, hbs, hasValue_iff.mp hv, rfl⟩
  refine ⟨_, hok, hf.apply (e := .setCondition b v) trivial hok, ?_⟩
  have hsucc : (x.terminator.withCondition v).successors = x.terminator.successors := by
    cases x.terminator <;> rfl
  refine ⟨⟨rfl, ?_, ?_, rfl, ?_, fun c => ?_⟩, rfl, fun c => ?_⟩
  · refine (shape?_mapValues fun w z => ?_).trans (shape?_mapValues fun w z => ?_)
    · split <;> rfl
    · split <;> rfl
  · refine (source?_mapValues fun w z => ?_).trans (source?_mapValues fun w z => ?_)
    · split <;> rfl
    · split <;> rfl
  · refine blockInstrs_mapBlocks fun c z => ?_
    split <;> rfl
  · rw [successors_eq, successors_eq]
    simp only [terminator?, mapBlocks, mapValues, Arena.get?_mapIds]
    by_cases hc : c = b
    · simp [hc, hx, hsucc]
    · simp [hc]
  · simp only [terminator?, mapBlocks, mapValues, Arena.get?_mapIds]
    by_cases hc : c = b
    · simp [hc, hx]
    · simp [hc]

theorem Retested.condition (h : Retested f b v g) (hb : f.condition? b = some old) (c : BlockId) :
    g.condition? c = if c = b then some v else f.condition? c := by
  obtain ⟨t, ht, hold⟩ := Option.bind_eq_some_iff.mp hb
  simp only [condition?, h.terminator]
  by_cases hc : c = b
  · subst hc
    cases t <;> simp_all [Terminator.withCondition, Terminator.condition?]
  · simp [hc]

theorem Retested.reads (h : Retested f b v g) : g.reads? = f.reads? := by
  funext u
  simp only [reads?, srcs?_eq_map, h.home, h.body]

theorem Retested.verified (h : Retested f b v g) (hf : f.Verified)
    (hb : f.condition? b = some old) (hlive : f.Live v) : g.Verified := by
  refine h.toReshaped.verified (fun u w hw => ?_) (fun c w hw => ?_) fun i c x hi hx => ?_
  · rw [h.reads] at hw
    exact hf.closed.source u w hw
  · rw [h.condition hb] at hw
    split at hw
    · obtain rfl := Option.some.inj hw
      exact hlive
    · exact hf.closed.condition c w hw
  · rw [h.body] at hx
    exact hf.fits i c x hi hx

/-- A condition that holds the same in every state that comes to the branch. -/
theorem Retested.evolves [FloatOps] (h : Retested f b v g) (hf : f.Ssa) (hg : g.Tidy)
    (hb : f.condition? b = some old) (hlive : f.Live v)
    (hcondition : f.blocks.Reachable b →
      ∃ d c, f.source? v = some d ∧ f.home? d = some c ∧ f.blocks.Dominates c b)
    (hvalue : ∀ vars io e, Arrives f vars io b (f.blockInstrs b) e → e.values v = e.values old) :
    Evolves f g := by
  obtain ⟨t, ht, hold⟩ := Option.bind_eq_some_iff.mp hb
  have hkeeps : f.Keeps g := by
    refine .of_same hf.tidy.linked.sourced (by simp [h.shape]) (fun w _ _ => ?_)
      (fun i c x hi hx _ => ⟨by rw [h.home, hi], by rw [h.dest], by rw [h.body, hx]⟩)
      fun i c x hi hx _ => ⟨by rw [← h.home, hi], by rw [← h.body, hx]⟩
    simp only [Arithmetic, h.source, h.body]
  refine h.toReshaped.evolves hg (h.verified hf.verified hb hlive) hkeeps ?_ ?_ ?_ ?_
  · intro c done i rest s w hr hc hread
    rw [h.reads] at hread
    exact hf.dominance.operand c done i rest s w hr hc hread
  · intro c w hr hw
    rw [h.condition hb] at hw
    by_cases hc : c = b
    · rw [if_pos hc] at hw
      obtain rfl := Option.some.inj hw
      exact hc ▸ hcondition (hc ▸ hr)
    · rw [if_neg hc] at hw
      exact hf.dominance.condition c w hr hw
  · intro vars io c done i rest e e₁ _ _ hs
    simpa only [step?, destShape?, h.body, h.dest, h.shape] using hs
  · intro vars io c t' e n ha ht' hn
    by_cases hc : c = b
    · subst hc
      obtain rfl : t = t' := by simpa [ht] using ht'
      refine ⟨t.withCondition v, by simp [h.terminator, ht], ?_⟩
      have hval := hvalue vars io e ha
      cases t with
      | branch c' yes no =>
        obtain rfl : c' = old := by simpa [Terminator.condition?] using hold
        simpa only [Terminator.withCondition, Env.next, hval] using hn
      | _ => simp [Terminator.condition?] at hold
    · exact ⟨t', by rw [h.terminator, if_neg hc, ht'], hn⟩

end ShaderSSA.Function
