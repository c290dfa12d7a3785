import ShaderSSA.Proofs.Keeping
import ShaderSSA.Proofs.Settled
import ShaderSSA.Proofs.Shedding

/-! Small changes to a function in which operands are defined at dominating points: a new
instruction behind another, other operands that hold the same, and one less instruction that nobody
reads. Each keeps the function so and loses no run. -/

namespace ShaderSSA.Function

variable {f g : Function} {i n : InstrId} {vars : Variables}

/-- Everything is recorded, operands fit and are defined at dominating points. -/
structure Ssa (f : Function) : Prop where
  tidy : f.Tidy
  verified : f.Verified
  dominance : f.DominanceRespecting

/-- The second function takes over from the first. -/
structure Evolves [FloatOps] (f g : Function) : Prop where
  ssa : g.Ssa
  refines : ∀ vars, Refines f vars g vars
  flow : ∀ b, g.blocks.successors b = f.blocks.successors b
  keeps : f.Keeps g

theorem Ssa.refl [FloatOps] (h : f.Ssa) : Evolves f f :=
  ⟨h, fun vars => .refl f vars, fun _ => rfl, .refl h.tidy.linked.sourced⟩

theorem Evolves.trans [FloatOps] {k : Function} (h : Evolves f g) (h' : Evolves g k) :
    Evolves f k :=
  ⟨h'.ssa, fun vars => (h.refines vars).trans (h'.refines vars),
    fun b => (h'.flow b).trans (h.flow b), h.keeps.trans h'.keeps⟩

theorem Live.mono {v : ValueId} (h : f.Live v)
    (hsource : ∀ d, f.source? v = some d → g.source? v = some d)
    (hhome : ∀ d b, f.source? v = some d → f.home? d = some b → g.home? d = some b) : g.Live v := by
  obtain ⟨d, b, hd, hb⟩ := h
  exact ⟨d, b, hsource d hd, hhome d b hd hb⟩

theorem Before.home {d : InstrId} {b : BlockId} {done rest : List InstrId} (h : f.Before d b done)
    (hf : f.Placed) (hb : f.blockInstrs b = done ++ rest) : ∃ c, f.home? d = some c := by
  rcases h with hd | ⟨c, hc, -⟩
  · exact ⟨b, hf.mem_iff.mp (by simp [hb, hd])⟩
  · exact ⟨c, hc⟩

theorem Before.mono {d : InstrId} {b : BlockId} {done done' : List InstrId}
    (h : f.Before d b done) (hflow : ∀ b, g.blocks.successors b = f.blocks.successors b)
    (hhome : ∀ c, f.home? d = some c → g.home? d = some c) (hdone : d ∈ done → d ∈ done') :
    g.Before d b done' := by
  rcases h with hd | ⟨c, hc, hdom⟩
  · exact .inl (hdone hd)
  · exact .inr ⟨c, hhome c hc, hdom.congr hflow⟩

/-- Where an instruction of a block ends up when the block is expanded. -/
theorem split_expand {l done' rest' before after : List InstrId} {j k : InstrId}
    {expand : InstrId → List InstrId} (hnd : (l.flatMap expand).Nodup) (hk : k ∈ l)
    (hexpand : expand k = before ++ j :: after) (h : l.flatMap expand = done' ++ j :: rest') :
    ∃ done rest, l = done ++ k :: rest ∧ done' = done.flatMap expand ++ before := by
  obtain ⟨done, rest, rfl⟩ := List.append_of_mem hk
  refine ⟨done, rest, rfl, ?_⟩
  have hsame : done' ++ j :: rest' =
      (done.flatMap expand ++ before) ++ j :: (after ++ rest.flatMap expand) := by
    rw [← h, List.flatMap_append, List.flatMap_cons, hexpand]
    simp
  rw [h] at hnd
  obtain ⟨-, hrest, hapart⟩ := List.nodup_append.mp hnd
  have hnot : j ∉ done' := fun hm => hapart j hm j (by simp) rfl
  have hnot' : j ∉ rest' := (List.nodup_cons.mp hrest).1
  exact ((List.append_cons_inj_of_notMem hnot hnot').mp hsame).1

/-- `g` is `f` with the instruction `n` right behind `i`, which defines `v`. -/
structure Appended (f : Function) (i n : InstrId) (body : Body) (shape : Shape) (v : ValueId)
    (g : Function) : Prop where
  body : ∀ j, g.body? j = if j = n then some body else f.body? j
  dest : ∀ j, g.dest? j = if j = n then some v else f.dest? j
  home : ∀ j, g.home? j = if j = n then f.home? i else f.home? j
  shape : ∀ w, g.shape? w = if w = v then some shape else f.shape? w
  source : ∀ w, g.source? w = if w = v then some n else f.source? w
  blocks : ∀ b, g.blockInstrs b =
    (f.blockInstrs b).flatMap fun j => if j = i then [i, n] else [j]
  terminator : g.terminator? = f.terminator?
  fresh : f.instrs.get? n = none
  unknown : f.hasValue v = false

theorem append_ok {b : BlockId} (hf : f.Tidy) (hi : f.home? i = some b) {body : Body}
    {shape : Shape} (hsrc : ∀ v ∈ body.srcs, f.hasValue v) (hlen : body.srcs.length ≤ 256)
    (hw : 1 ≤ shape.width ∧ shape.width ≤ 4) :
    ∃ n v g, f.insert (.after i) body (some shape) = .ok (n, g) ∧ g.Tidy ∧
      Appended f i n body shape v g := by
  obtain ⟨pre, post, hb⟩ := List.append_of_mem (hf.linked.placed.mem_iff.mpr hi)
  have hblock : ∃ x, f.blocks.get? b = some x := by
    cases hx : f.blocks.get? b with
    | none => simp [blockInstrs, hx] at hb
    | some x => exact ⟨x, rfl⟩
  have hr : f.resolve (.after i) = .ok (b, pre.length + 1) := by
    simp only [resolve, position_of_split hf.linked.placed hb, ok_bind]
    rfl
  have hins : f.insert (.after i) body (some shape) =
      .ok (⟨f.instrs.size⟩, f.inserted b (pre.length + 1) body (some shape)) :=
    insert_eq_ok.mpr ⟨b, _, hr, hsrc, by rintro s ⟨rfl⟩; exact hw, hblock, rfl, rfl⟩
  have htidy : (f.inserted b (pre.length + 1) body (some shape)).Tidy := by
    refine hf.apply (e := .insert (.after i) body (some shape)) hlen ?_
    simp only [Edit.apply, hins]
    rfl
  refine ⟨⟨f.instrs.size⟩, ⟨f.values.size⟩, _, hins, htidy, ?_⟩
  refine ⟨fun j => body?_inserted .., fun j => dest?_inserted .., fun j => ?_,
    fun w => shape?_inserted .., fun w => source?_inserted .., fun c => ?_,
    terminator?_inserted .., Arena.get?_size _, ?_⟩
  · rw [home?_inserted, hi]
  · rw [blockInstrs_inserted _ _ _ _ _ hblock]
    by_cases hc : c = b
    · have hnd := hf.linked.placed.nodup b
      rw [hb] at hnd
      have hlen' : pre.length + 1 = (pre ++ [i]).length := by simp
      have hlist : pre ++ i :: post = (pre ++ [i]) ++ post := by simp
      rw [if_pos hc, hc, hb, expand_split hnd, hlen', hlist, insertIdx_length_append]
      simp
    · have hnot : i ∉ f.blockInstrs c := by
        intro hm
        have hhome := hf.linked.placed.mem_iff.mp hm
        exact hc (by simpa [hi] using hhome.symm)
      rw [if_neg hc, expand_of_not_mem hnot]
  · simp [Function.hasValue, Arena.get?_size]

section Appending

variable {body : Body} {shape : Shape} {v : ValueId}

theorem Appended.flow (h : Appended f i n body shape v g) (b : BlockId) :
    g.blocks.successors b = f.blocks.successors b := by
  rw [successors_eq, successors_eq, h.terminator]

theorem Appended.ne_new (h : Appended f i n body shape v g) {j : InstrId} {b : BlockId}
    (hj : f.home? j = some b) : j ≠ n := by
  rintro rfl
  obtain ⟨x, hx, -⟩ := home?_eq_some.mp hj
  simp [h.fresh] at hx

theorem Appended.ne_value (h : Appended f i n body shape v g) {w : ValueId}
    (hw : f.hasValue w) : w ≠ v := by
  rintro rfl
  simp [h.unknown] at hw

theorem Appended.home_old (h : Appended f i n body shape v g) {j : InstrId} {b : BlockId}
    (hj : f.home? j = some b) : g.home? j = some b := by
  rw [h.home, if_neg (h.ne_new hj), hj]

theorem Appended.destShape_old (h : Appended f i n body shape v g) (hf : f.Defined)
    {j : InstrId} {b : BlockId} (hj : f.home? j = some b) :
    g.destShape? j = f.destShape? j := by
  simp only [destShape?, h.dest, if_neg (h.ne_new hj)]
  cases hd : f.dest? j with
  | none => rfl
  | some w =>
    have hs := (hf.iff j w).mp hd
    obtain ⟨x, hx, -⟩ := Option.map_eq_some_iff.mp hs
    simp [h.shape, h.ne_value (hasValue_iff.mpr ⟨x, hx⟩)]

theorem Appended.reads_old (h : Appended f i n body shape v g) {u : Use} (hu : u.instr ≠ n) :
    g.reads? u = f.reads? u := by
  simp only [reads?, srcs?_eq_map, h.body, h.home, if_neg hu]

theorem Appended.shape_old (h : Appended f i n body shape v g) {w : ValueId} {t : Shape}
    (hw : f.shape? w = some t) : g.shape? w = some t := by
  rw [h.shape, if_neg (h.ne_value (hasValue_of_shape hw)), hw]

theorem Appended.fits (h : Appended f i n body shape v g) {dest : Option Shape} {x : Body}
    (hx : f.BodyFits dest x) : g.BodyFits dest x := hx.mono fun _ _ => h.shape_old

theorem Appended.before (h : Appended f i n body shape v g) {d : InstrId} {b : BlockId}
    {done : List InstrId} (hd : f.Before d b done) :
    g.Before d b (done.flatMap fun j => if j = i then [i, n] else [j]) := by
  refine hd.mono h.flow (fun c hc => h.home_old hc) fun hm => List.mem_flatMap.mpr ⟨d, hm, ?_⟩
  by_cases hdi : d = i <;> simp [hdi]

theorem Appended.source_old (h : Appended f i n body shape v g) {w : ValueId} {d : InstrId}
    (hw : f.source? w = some d) : g.source? w = some d := by
  obtain ⟨x, hx, -⟩ := Option.map_eq_some_iff.mp hw
  rw [h.source, if_neg (h.ne_value (hasValue_iff.mpr ⟨x, hx⟩)), hw]

theorem Appended.live_old (h : Appended f i n body shape v g) {w : ValueId} (hw : f.Live w) :
    g.Live w :=
  hw.mono (fun _ hd => h.source_old hd) fun _ _ _ hb => h.home_old hb

theorem Appended.verified (h : Appended f i n body shape v g) (hf : f.Tidy) (hv : f.Verified)
    (hsrc : ∀ w ∈ body.srcs, f.Live w) (hfits : f.BodyFits (some shape) body) : g.Verified := by
  refine ⟨⟨fun u w hw => ?_, fun c w hw => ?_⟩, fun j c x hj hx => ?_⟩
  · by_cases hu : u.instr = n
    · have hbody : g.body? u.instr = some body := by simp [h.body, hu]
      exact h.live_old (hsrc w (List.mem_of_getElem? (srcs_of_reads hw hbody)))
    · rw [h.reads_old hu] at hw
      exact h.live_old (hv.closed.source u w hw)
  · rw [condition?, h.terminator] at hw
    exact h.live_old (hv.closed.condition c w hw)
  · rw [h.home] at hj
    rw [h.body] at hx
    by_cases hjn : j = n
    · rw [if_pos hjn] at hx
      obtain rfl := Option.some.inj hx
      have hshape : g.destShape? j = some shape := by simp [destShape?, h.dest, h.shape, hjn]
      rw [hshape]
      exact h.fits hfits
    · rw [if_neg hjn] at hj hx
      rw [h.destShape_old hf.linked.defined hj]
      exact h.fits (hv.fits j c x hj hx)

theorem appendAlu_ok {b : BlockId} {a : Alu} (hf : f.Tidy) (hv : f.Verified)
    (hi : f.home? i = some b) (hlive : ∀ w ∈ (Body.alu a).srcs, f.Live w)
    (hfits : f.AluFits (some shape) a) (hw : 1 ≤ shape.width ∧ shape.width ≤ 4) :
    ∃ n v g, f.insert (.after i) (.alu a) (some shape) = .ok (n, g) ∧ g.Tidy ∧ g.Verified ∧
      Appended f i n (.alu a) shape v g := by
  have hlen : (Body.alu a).srcs.length ≤ 256 := by
    have harity := hfits.1
    have hle := AluOp.arity_le a.op
    simp only [Body.srcs, List.length_map]
    omega
  obtain ⟨n, v, g, hins, hg, h⟩ := append_ok hf hi (fun w hw => (hlive w hw).hasValue) hlen hw
  exact ⟨n, v, g, hins, hg, h.verified hf hv hlive hfits, h⟩

theorem Appended.keeps (h : Appended f i n body shape v g) (hf : f.Tidy)
    (halu : body.alu?.isSome) : f.Keeps g := by
  refine .of_same hf.linked.sourced (fun w t hw => h.shape_old hw) (fun w t hw => ?_)
    (fun j b x hj hx _ => ?_) fun j b x hj hx hnone => ?_
  · have hwv := h.ne_value (hasValue_of_shape hw)
    refine exists_congr fun d => exists_congr fun a => ?_
    rw [h.source, if_neg hwv]
    refine and_congr_right fun hd => ?_
    have hdn : d ≠ n := by
      rintro rfl
      have hdest := (hf.linked.defined.iff d w).mpr hd
      simp [dest?, h.fresh] at hdest
    rw [h.body, if_neg hdn]
  · have hjn := h.ne_new hj
    exact ⟨h.home_old hj, by rw [h.dest, if_neg hjn], by rw [h.body, if_neg hjn, hx]⟩
  · have hjn : j ≠ n := by
      rintro rfl
      rw [h.body, if_pos rfl] at hx
      obtain rfl := Option.some.inj hx
      simp [hnone] at halu
    rw [h.home, if_neg hjn] at hj
    rw [h.body, if_neg hjn] at hx
    exact ⟨hj, hx⟩

variable {b : BlockId} {done rest : List InstrId}

theorem Appended.dominance (h : Appended f i n body shape v g) (hf : f.Tidy) (hg : g.Tidy)
    (hdom : f.DominanceRespecting) (hb : f.blockInstrs b = done ++ i :: rest)
    (hsrc : ∀ w ∈ body.srcs, ∃ d, f.source? w = some d ∧ f.Before d b (done ++ [i])) :
    g.DominanceRespecting := by
  have hi : f.home? i = some b := hf.linked.placed.mem_iff.mp (by simp [hb])
  have hin : i ≠ n := h.ne_new hi
  refine ⟨?_, ?_⟩
  · intro c done' j rest' s w hr hc hread
    have hr' : f.blocks.Reachable c := hr.congr fun x => (h.flow x).symm
    have hnd := hg.linked.placed.nodup c
    have hjc : j ∈ g.blockInstrs c := by simp [hc]
    by_cases hj : j = n
    · subst hj
      have hhome : g.home? j = some c := hg.linked.placed.mem_iff.mp hjc
      rw [h.home, if_pos rfl, hi] at hhome
      obtain rfl : b = c := by simpa using hhome
      have hblock : g.blockInstrs b = (done ++ [i]) ++ j :: rest := by
        have hnd := hf.linked.placed.nodup b
        rw [hb] at hnd
        rw [h.blocks, hb, expand_split hnd]
        simp
      obtain ⟨rfl, -⟩ := hg.linked.placed.split_unique hblock hc
      have hmem := List.mem_of_getElem? (srcs_of_reads hread (by rw [h.body, if_pos rfl]))
      obtain ⟨d, hd, hbefore⟩ := hsrc w hmem
      refine ⟨d, h.source_old hd, ?_⟩
      exact hbefore.mono h.flow (fun c hc => h.home_old hc) fun hm => hm
    · have hjf : j ∈ f.blockInstrs c := by
        rw [h.blocks, List.mem_flatMap] at hjc
        obtain ⟨k, hk, hjk⟩ := hjc
        by_cases hki : k = i
        · rw [if_pos hki] at hjk
          obtain rfl : j = i := by simpa [hj] using hjk
          exact hki ▸ hk
        · rw [if_neg hki] at hjk
          exact List.mem_singleton.mp hjk ▸ hk
      have hhome : f.home? j = some c := hf.linked.placed.mem_iff.mp hjf
      obtain ⟨more, hmore⟩ : ∃ more, (if j = i then [i, n] else [j]) = [] ++ j :: more := by
        by_cases hji : j = i
        · exact ⟨[n], by simp [hji]⟩
        · exact ⟨[], by simp [hji]⟩
      rw [h.blocks] at hnd hc
      obtain ⟨done₀, rest₀, hl, rfl⟩ := split_expand hnd hjf hmore hc
      rw [h.reads_old (u := ⟨j, s⟩) hj] at hread
      obtain ⟨d, hd, hbefore⟩ := hdom.operand c done₀ j rest₀ s w hr' hl hread
      rw [List.append_nil]
      exact ⟨d, h.source_old hd, h.before hbefore⟩
  · intro c w hr hw
    have hr' : f.blocks.Reachable c := hr.congr fun x => (h.flow x).symm
    rw [condition?, h.terminator] at hw
    obtain ⟨d, k, hd, hk, hkc⟩ := hdom.condition c w hr' hw
    exact ⟨d, k, h.source_old hd, h.home_old hk, hkc.congr h.flow⟩

theorem Appended.refines [FloatOps] (h : Appended f i n body shape v g) (hf : f.Tidy)
    (hb : f.blockInstrs b = done ++ i :: rest) (hpure : body.access? = none)
    (hsrc : ∀ w ∈ body.srcs, f.hasValue w)
    (hgo : ∀ io e, Arrives f vars io b (done ++ [i]) e →
      ∃ x, e.effect vars (some shape) body = some (.value x)) : Refines f vars g vars := by
  have hi : f.home? i = some b := hf.linked.placed.mem_iff.mp (by simp [hb])
  have hold : ∀ j c, f.home? j = some c → ∀ {e e₁ e' : Env},
      e.Tracks (fun w => w) (fun w => f.hasValue w) e' → f.step? vars j e = some e₁ →
      ∃ e₁', g.step? vars j e' = some e₁' ∧
        e₁.Tracks (fun w => w) (fun w => f.hasValue w) e₁' := by
    intro j c hj e e₁ e' ht hs
    have hbody : g.body? j = (f.body? j).map fun x => x.mapSrcs fun _ w => w := by
      rw [h.body, if_neg (h.ne_new hj)]
      simp [Body.mapSrcs_id]
    have hdest : g.dest? j = f.dest? j := by rw [h.dest, if_neg (h.ne_new hj)]
    exact step?_tracks ht (.refl vars) hbody hdest (h.destShape_old hf.linked.defined hj)
      (fun vs hvs w hw => hf.linked.sourced.known j vs hvs w hw) (fun _ _ _ _ => Iff.rfl) hs
  suffices hsim : Simulates f vars g vars (fun j => if j = i then [i, n] else [j])
      fun e e' => e.Tracks (fun w => w) (fun w => f.hasValue w) e' from hsim.refines
  refine ⟨fun io => .start io, h.blocks, ?_, ?_, fun _ _ ht => ht.io⟩
  · intro io c done' j rest' e e₁ e' ha ht hc hs
    have hj : f.home? j = some c := hf.linked.placed.mem_iff.mp (by simp [hc])
    obtain ⟨e₁', he₁', ht₁⟩ := hold j c hj ht hs
    by_cases hji : j = i
    · subst hji
      obtain rfl : c = b := by simpa [hj] using hi
      obtain ⟨rfl, -⟩ := hf.linked.placed.split_unique hb hc
      obtain ⟨x, hx⟩ := hgo io e₁ (ha.step hc hs)
      have heff : e₁'.effect vars (some shape) body = some (.value x) := by
        rw [Env.effect_congr hpure fun w hw => ht₁.holds (hsrc w hw), hx]
      have hnew : g.step? vars n e₁' = some (e₁'.define v x) := by
        have hshape : g.destShape? n = some shape := by simp [destShape?, h.dest, h.shape]
        simp only [step?, h.body, if_true, hshape, h.dest, Option.bind_some, heff]
        rfl
      refine ⟨e₁'.define v x, ?_, fun w hw => ?_, ht₁.places, ht₁.io⟩
      · simp [exec?, he₁', hnew]
      · have hne : w ≠ v := h.ne_value hw
        simp [Env.define, hne, ht₁.values w hw]
    · exact ⟨e₁', by simp [exec?, hji, he₁'], ht₁⟩
  · intro io c t e e' m _ ht hterm hn
    refine ⟨t, by rw [h.terminator, hterm], ?_⟩
    have hn' : e'.next (t.rename fun w => w) = some m := next_rename (fun w hw =>
      ht.values w (hf.linked.branches.known c w (by simp [condition?, hterm, hw]))) hn
    rwa [Terminator.rename_id] at hn'

theorem Appended.evolves [FloatOps] {a : Alu} (h : Appended f i n (.alu a) shape v g) (hf : f.Ssa)
    (hg : g.Tidy) (hb : f.blockInstrs b = done ++ i :: rest)
    (hsrc : ∀ w ∈ (Body.alu a).srcs, ∃ d, f.source? w = some d ∧ f.Before d b (done ++ [i]))
    (hfits : f.AluFits (some shape) a)
    (hgo : ∀ vars io e, Arrives f vars io b (done ++ [i]) e →
      ∃ x, e.effect vars (some shape) (.alu a) = some (.value x)) : Evolves f g := by
  have hlive : ∀ w ∈ (Body.alu a).srcs, f.Live w := by
    intro w hw
    obtain ⟨d, hd, hbefore⟩ := hsrc w hw
    have hsplit : f.blockInstrs b = (done ++ [i]) ++ rest := by simp [hb]
    obtain ⟨c, hc⟩ := hbefore.home hf.tidy.linked.placed hsplit
    exact ⟨d, c, hd, hc⟩
  have hknown : ∀ w ∈ (Body.alu a).srcs, f.hasValue w := fun w hw => (hlive w hw).hasValue
  exact ⟨⟨hg, h.verified hf.tidy hf.verified hlive hfits,
      h.dominance hf.tidy hg hf.dominance hb hsrc⟩,
    fun vars => h.refines hf.tidy hb rfl hknown (hgo vars), h.flow, h.keeps hf.tidy rfl⟩

end Appending

/-- `g` differs from `f` only in what instructions and branches read. -/
structure Reshaped (f g : Function) : Prop where
  dest : g.dest? = f.dest?
  shape : g.shape? = f.shape?
  source : g.source? = f.source?
  home : g.home? = f.home?
  blocks : g.blockInstrs = f.blockInstrs
  flow : ∀ b, g.blocks.successors b = f.blocks.successors b

theorem Reshaped.verified (h : Reshaped f g) (hsource : ∀ u v, g.reads? u = some v → f.Live v)
    (hcondition : ∀ b v, g.condition? b = some v → f.Live v)
    (hfits : ∀ i b body, f.home? i = some b → g.body? i = some body →
      f.BodyFits (f.destShape? i) body) : g.Verified := by
  have hlive : ∀ v, f.Live v → g.Live v := fun v hv =>
    hv.mono (by simp [h.source]) (by simp [h.home])
  refine ⟨⟨fun u v hv => hlive v (hsource u v hv), fun b v hv => hlive v (hcondition b v hv)⟩, ?_⟩
  intro i b body hi hbody
  rw [h.home] at hi
  have hfit := hfits i b body hi hbody
  cases body with
  | alu a => simpa only [BodyFits, AluFits, destShape?, h.dest, h.shape] using hfit
  | access a => exact hfit
  | _ => trivial

theorem Reshaped.evolves [FloatOps] (h : Reshaped f g) (hg : g.Tidy) (hv : g.Verified)
    (hk : f.Keeps g)
    (hoperand : ∀ b done i rest s v, f.blocks.Reachable b → f.blockInstrs b = done ++ i :: rest →
      g.reads? ⟨i, s⟩ = some v → ∃ d, f.source? v = some d ∧ f.Before d b done)
    (hcondition : ∀ b v, f.blocks.Reachable b → g.condition? b = some v →
      ∃ d c, f.source? v = some d ∧ f.home? d = some c ∧ f.blocks.Dominates c b)
    (hstep : ∀ vars io b done i rest e e₁, Arrives f vars io b done e →
      f.blockInstrs b = done ++ i :: rest → f.step? vars i e = some e₁ →
      g.step? vars i e = some e₁)
    (hleave : ∀ vars io b t e n, Arrives f vars io b (f.blockInstrs b) e →
      f.terminator? b = some t → e.next t = some n →
      ∃ t', g.terminator? b = some t' ∧ e.next t' = some n) : Evolves f g := by
  have hback : ∀ b, g.blocks.Reachable b → f.blocks.Reachable b :=
    fun b hb => hb.congr fun x => (h.flow x).symm
  refine ⟨⟨hg, hv, ?_, ?_⟩, fun vars => ?_, h.flow, hk⟩
  · intro b done i rest s v hr hb hread
    rw [h.blocks] at hb
    obtain ⟨d, hd, hbefore⟩ := hoperand b done i rest s v (hback b hr) hb hread
    exact ⟨d, by rw [h.source, hd], hbefore.mono h.flow (by simp [h.home]) fun hm => hm⟩
  · intro b v hr hv
    obtain ⟨d, c, hd, hc, hdom⟩ := hcondition b v (hback b hr) hv
    exact ⟨d, c, by rw [h.source, hd], by rw [h.home, hc], hdom.congr h.flow⟩
  · suffices hsim : Simulates f vars g vars (fun j => [j]) fun e e' => e' = e from hsim.refines
    refine ⟨fun _ => rfl, fun b => ?_, ?_, ?_, fun _ _ he => by rw [he]⟩
    · rw [h.blocks, List.flatMap_singleton']
    · rintro io b done i rest e e₁ _ ha rfl hb hs
      exact ⟨e₁, by simp [exec?, hstep vars io b done i rest _ e₁ ha hb hs], rfl⟩
    · rintro io b t e _ n ha rfl ht hn
      exact hleave vars io b t _ n ha ht hn

theorem filter_ne_eq_flatMap (l : List InstrId) (i : InstrId) :
    l.filter (· != i) = l.flatMap fun j => if j = i then [] else [j] := by
  induction l with
  | nil => rfl
  | cons j l ih =>
    by_cases hj : j = i
    · simp [hj, ih]
    · simp [hj, ih]

/-- What is read once an instruction is replaced is defined at dominating points if it was so
before the instruction went. -/
theorem Replaced.dominance {ρ : ValueId → ValueId} (hr : Replaced f i ρ g) (hf : f.Placed)
    (hoperand : ∀ b done j rest s v, f.blocks.Reachable b → f.blockInstrs b = done ++ j :: rest →
      j ≠ i → f.reads? ⟨j, s⟩ = some v →
      ∃ d, f.source? (ρ v) = some d ∧ d ≠ i ∧ f.Before d b done)
    (hcondition : ∀ b v, f.blocks.Reachable b → f.condition? b = some v →
      ∃ d c, f.source? (ρ v) = some d ∧ d ≠ i ∧ f.home? d = some c ∧ f.blocks.Dominates c b) :
    g.DominanceRespecting := by
  have hflow : ∀ b, g.blocks.successors b = f.blocks.successors b := by
    intro b
    rw [successors_eq, successors_eq, hr.terminator]
    cases f.terminator? b with
    | none => rfl
    | some t => cases t <;> rfl
  have hback : ∀ b, g.blocks.Reachable b → f.blocks.Reachable b :=
    fun b hb => hb.congr fun x => (hflow x).symm
  refine ⟨?_, ?_⟩
  · intro b done' j rest' s w hb hblock hread
    rw [hr.reads] at hread
    by_cases hji : j = i
    · simp [hji] at hread
    rw [if_neg hji, Option.map_eq_some_iff] at hread
    obtain ⟨v, hv, rfl⟩ := hread
    have hnd := (hf.nodup b).filter (· != i)
    have hj : j ∈ f.blockInstrs b := by
      have hmem : j ∈ g.blockInstrs b := by simp [hblock]
      rw [hr.blocks] at hmem
      exact (List.mem_filter.mp hmem).1
    rw [hr.blocks, filter_ne_eq_flatMap] at hblock
    rw [filter_ne_eq_flatMap] at hnd
    have hone : (if j = i then [] else [j]) = [] ++ j :: [] := by simp [hji]
    obtain ⟨done, rest, hl, rfl⟩ := split_expand hnd hj hone hblock
    obtain ⟨d, hd, hdi, hbefore⟩ := hoperand b done j rest s v (hback b hb) hl hji hv
    refine ⟨d, by rw [hr.source, hd], hbefore.mono hflow (fun c hc => ?_) fun hm => ?_⟩
    · rw [hr.home, if_neg hdi, hc]
    · rw [List.append_nil, List.mem_flatMap]
      exact ⟨d, hm, by simp [hdi]⟩
  · intro b w hb hw
    rw [hr.condition, Option.map_eq_some_iff] at hw
    obtain ⟨v, hv, rfl⟩ := hw
    obtain ⟨d, c, hd, hdi, hc, hdom⟩ := hcondition b v (hback b hb) hv
    exact ⟨d, c, by rw [hr.source, hd], by rw [hr.home, if_neg hdi, hc], hdom.congr hflow⟩

theorem Tidy.unread {v : ValueId} (hf : f.Tidy) (hv : f.hasValue v)
    (hread : ∀ u, f.reads? u ≠ some v) (hcond : ∀ c, f.condition? c ≠ some v) :
    f.uses? v = some [] ∧ f.branches? v = some [] := by
  obtain ⟨x, hx⟩ := hasValue_iff.mp hv
  have huses : f.uses? v = some x.uses := by simp [uses?, hx]
  have hbranches : f.branches? v = some x.branchUses := by simp [branches?, hx]
  rw [huses, hbranches]
  refine ⟨congrArg some ?_, congrArg some ?_⟩
  · exact List.eq_nil_iff_forall_not_mem.mpr fun u hu =>
      hread u ((hf.recorded.mem_iff huses).mp hu)
  · exact List.eq_nil_iff_forall_not_mem.mpr fun c hc =>
      hcond c ((hf.linked.branches.mem_iff hbranches).mp hc)

/-- Nobody reads what `i` gives. -/
def Unread (f : Function) (i : InstrId) : Prop :=
  ∀ v, f.dest? i = some v → (∀ u, f.reads? u ≠ some v) ∧ ∀ c, f.condition? c ≠ some v

theorem Unread.ne {d : InstrId} {v : ValueId} (h : f.Unread i) (hf : f.Defined)
    (hv : (∃ u, f.reads? u = some v) ∨ ∃ c, f.condition? c = some v) (hd : f.source? v = some d) :
    d ≠ i := by
  rintro rfl
  obtain ⟨hread, hcond⟩ := h v ((hf.iff d v).mpr hd)
  rcases hv with ⟨u, hu⟩ | ⟨c, hc⟩
  · exact hread u hu
  · exact hcond c hc

theorem Unread.remove_ok {b : BlockId} (h : f.Unread i) (hf : f.Tidy) (hi : f.home? i = some b) :
    ∃ g, f.remove i = .ok g ∧ g.Tidy ∧ Replaced f i (fun w => w) g := by
  obtain ⟨g, hg⟩ := remove_isOk_of_unread hf hi fun v hv => by
    obtain ⟨x, hx, -⟩ := Option.map_eq_some_iff.mp ((hf.linked.defined.iff i v).mp hv)
    exact hf.unread (hasValue_iff.mpr ⟨x, hx⟩) (h v hv).1 (h v hv).2
  refine ⟨g, hg, hf.apply (e := .remove i) trivial ?_, replaced_of_remove hf.linked.placed hg⟩
  simp only [Edit.apply, hg]

theorem Unread.dominance (h : f.Unread i) (hf : f.Linked) (hdom : f.DominanceRespecting)
    (hr : Replaced f i (fun w => w) g) : g.DominanceRespecting := by
  refine hr.dominance hf.placed ?_ ?_
  · intro c done j rest s w hc hblock _ hw
    obtain ⟨d, hdw, hbefore⟩ := hdom.operand c done j rest s w hc hblock hw
    exact ⟨d, hdw, h.ne hf.defined (.inl ⟨_, hw⟩) hdw, hbefore⟩
  · intro c w hc hw
    obtain ⟨d, k, hdw, hk, hkc⟩ := hdom.condition c w hc hw
    exact ⟨d, k, hdw, h.ne hf.defined (.inr ⟨c, hw⟩) hdw, hk, hkc⟩

/-- Without an instruction whose value nobody reads, every run goes through. -/
theorem Unread.refines [FloatOps] {b : BlockId} {body : Body} (h : f.Unread i) (hf : f.Tidy)
    (hi : f.home? i = some b) (hbody : f.body? i = some body) (hpure : body.access? = none)
    (hr : Replaced f i (fun w => w) g) : Refines f vars g vars := by
  refine refines_of_replaced (K := fun w => f.dest? i ≠ some w) hf hi (.refl vars) (.refl f i) hr
    (fun u w _ hw hd => (h w hd).1 u hw) (fun c w hw hd => (h w hd).2 c hw)
    (fun _ _ _ _ _ _ => Iff.rfl) ?_
  intro io done rest e e₁ e' _ _ hs ht
  simp only [step?, hbody, Option.bind_some, Option.map_eq_some_iff] at hs
  obtain ⟨r, heff, rfl⟩ := hs
  exact ⟨by simp, e', rfl, ht.apply_left (effect_ne_outputs hpure heff) fun v hv hk => hk hv⟩

theorem verified_of_remove {b : BlockId} (hf : f.Tidy) (hv : f.Verified) (hi : f.home? i = some b)
    (hread : ∀ v u, f.dest? i = some v → f.reads? u ≠ some v)
    (hcond : ∀ v c, f.dest? i = some v → f.condition? c ≠ some v) (h : f.remove i = .ok g) :
    g.Verified := by
  have hr := replaced_of_remove hf.linked.placed h
  have hlive : ∀ w, f.Live w → f.dest? i ≠ some w → g.Live w := by
    intro w hw hdest
    refine hw.mono (by simp [hr.source]) fun d c hd hc => ?_
    have hdi : d ≠ i := by
      rintro rfl
      exact hdest ((hf.linked.defined.iff d w).mpr hd)
    rw [hr.home, if_neg hdi, hc]
  refine ⟨⟨fun u w hw => ?_, fun c w hw => ?_⟩, fun j c body hj hbody => ?_⟩
  · rw [hr.reads] at hw
    split at hw
    · cases hw
    · rw [Option.map_id'] at hw
      exact hlive w (hv.closed.source u w hw) fun hd => hread w u hd hw
  · rw [hr.condition, Option.map_id'] at hw
    exact hlive w (hv.closed.condition c w hw) fun hd => hcond w c hd hw
  · rw [hr.home] at hj
    split at hj
    · cases hj
    · rw [(shed_of_remove h).body] at hbody
      have hfit := hv.fits j c body hj hbody
      cases body with
      | alu a => simpa only [BodyFits, AluFits, destShape?, hr.dest, hr.shape] using hfit
      | access a => exact hfit
      | _ => trivial

theorem keeps_of_remove {a : Alu} (hf : f.Tidy) (hbody : f.body? i = some (.alu a))
    (h : f.remove i = .ok g) : f.Keeps g := by
  have hr := replaced_of_remove hf.linked.placed h
  have hb := (shed_of_remove h).body
  refine .of_same hf.linked.sourced (by simp [hr.shape]) (fun v s _ => ?_)
    (fun j b x hj hx halu => ?_) fun j b x hj hx _ => ?_
  · simp only [Arithmetic, hr.source, hb]
  · have hji : j ≠ i := by
      rintro rfl
      obtain rfl := Option.some.inj (hbody.symm.trans hx)
      cases halu
    exact ⟨by rw [hr.home, if_neg hji, hj], by rw [hr.dest], by rw [hb, hx]⟩
  · rw [hr.home] at hj
    split at hj
    · cases hj
    · exact ⟨hj, by rw [← hb, hx]⟩

theorem Replaced.flow (hr : Replaced f i (fun w => w) g) (c : BlockId) :
    g.blocks.successors c = f.blocks.successors c := by
  rw [successors_eq, successors_eq, hr.terminator]
  cases f.terminator? c with
  | none => rfl
  | some t => cases t <;> rfl

theorem Replaced.linked {b : BlockId} {j : InstrId} (hr : Replaced f i (fun w => w) g)
    (hj : f.home? j = some b) (hji : j ≠ i) : g.home? j = some b ∧ g.body? j = f.body? j := by
  refine ⟨by rw [hr.home, if_neg hji, hj], ?_⟩
  rw [hr.body j b hj]
  simp [Body.mapSrcs_id]

theorem Unread.replaced {j : InstrId} (h : f.Unread j) (hr : Replaced f i (fun w => w) g) :
    g.Unread j := by
  intro v hv
  rw [hr.dest] at hv
  refine ⟨fun u => ?_, fun c => ?_⟩
  · rw [hr.reads]
    split
    · simp
    · simpa using (h v hv).1 u
  · rw [hr.condition]
    simpa using (h v hv).2 c

theorem Unread.verified {b : BlockId} (h : f.Unread i) (hf : f.Tidy) (hv : f.Verified)
    (hi : f.home? i = some b) (hg : f.remove i = .ok g) : g.Verified :=
  verified_of_remove hf hv hi (fun w u hw => (h w hw).1 u) (fun w c hw => (h w hw).2 c) hg

theorem Unread.evolves [FloatOps] {b : BlockId} {a : Alu} (h : f.Unread i) (hf : f.Ssa)
    (hi : f.home? i = some b) (hbody : f.body? i = some (.alu a)) (hg : f.remove i = .ok g)
    (htidy : g.Tidy) : Evolves f g := by
  have hr := replaced_of_remove hf.tidy.linked.placed hg
  exact ⟨⟨htidy, h.verified hf.tidy hf.verified hi hg,
      h.dominance hf.tidy.linked hf.dominance hr⟩,
    fun vars => h.refines hf.tidy hi hbody rfl hr, hr.flow, keeps_of_remove hf.tidy hbody hg⟩

end ShaderSSA.Function
