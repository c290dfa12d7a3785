import ShaderSSA.Proofs.FlatChannels
import ShaderSSA.Proofs.Places

/-! Splitting flat accesses keeps the meaning of a shader: whatever a run leaves outside, a run of
the split shader leaves too. -/

namespace ShaderSSA

namespace Function

variable {f : Function} {i : InstrId} {b : BlockId} {T : Terms} {vars : Variables}

/-- The channels of every flat load and store lie in one slot, and just the loads define
something. -/
def FlatShaped (f : Function) : Prop :=
  ∀ i b a, f.home? i = some b → f.body? i = some (.access a) →
    a.kind = .loadInput ∨ a.kind = .storeOutput →
    ((f.dest? i).isSome ↔ a.kind = .loadInput) ∧ 1 ≤ a.width ∧ a.width ≤ 4 ∧
      a.component + a.width ≤ 256

instance (f : Function) : Decidable f.FlatShaped :=
  decidable_of_iff _ (f.forall_access_iff _)

/-- All values are 32 bits wide as well. -/
structure FlatReady (f : Function) : Prop where
  bits : ∀ v s, f.Live v → f.shape? v = some s → s.bits = 32
  shaped : f.FlatShaped

instance (f : Function) : Decidable f.FlatReady :=
  decidable_of_iff ((∀ v ∈ f.values.ids, f.Live v → ∀ s ∈ f.shape? v, s.bits = 32) ∧
    f.FlatShaped) <| by
    rw [f.forall_live_iff fun s => s.bits = 32]
    exact ⟨fun h => ⟨h.1, h.2⟩, fun h => ⟨h.bits, h.shaped⟩⟩

/-- What a split of flat accesses needs to keep the meaning. -/
def flatTerms : Terms :=
  { narrow := True
    flat := True
    derefs := False
    exact := False
    apart := False
    ordered := False
    stage := .vertex
    modes := .empty }

theorem FlatShaped.sound {narrow : Prop} (h : f.FlatShaped)
    (hbits : narrow → ∀ v s, f.Live v → f.shape? v = some s → s.bits = 32) (hr : f.Reached)
    (hv : f.Verified) (vars : Variables) : f.Sound { flatTerms with narrow } vars := by
  refine ⟨⟨hr, hv.small hr.linked⟩, hv.closed, fun i b body hi hbody => ⟨?_, ?_, False.elim,
    False.elim⟩, False.elim, False.elim⟩
  · intro hT s hs
    obtain ⟨v, hd, hshape⟩ := Option.bind_eq_some_iff.mp hs
    exact hbits hT v s ⟨i, b, (hr.linked.defined.iff i v).mp hd, hi⟩ hshape
  · rintro a rfl
    have hflat : a.kind.hasComponent → (((f.destShape? i).isSome ↔ a.kind.hasDest) ∧
        1 ≤ a.width ∧ a.width ≤ 4 ∧ a.component + a.width ≤ 256) := by
      intro hk
      have hk' : a.kind = .loadInput ∨ a.kind = .storeOutput := by
        revert hk
        cases a.kind <;> simp [Intrinsic.hasComponent]
      rw [hr.linked.defined.isSome_destShape]
      obtain ⟨hdest, hrest⟩ := h i b a hi hbody hk'
      refine ⟨hdest.trans ?_, hrest⟩
      rcases hk' with hk' | hk' <;> simp [hk', Intrinsic.hasDest, Intrinsic.isStore]
    have hcover : Terms.Covers { flatTerms with narrow } a.kind → a.kind.hasComponent := by
      rintro (⟨-, hk⟩ | ⟨hfalse, -⟩)
      · exact hk
      · exact hfalse.elim
    exact ⟨hv.access i b a hi hbody, fun hk => (hflat (hcover hk)).1,
      fun hk => ⟨(hflat (hcover hk)).2.1, (hflat (hcover hk)).2.2.1⟩,
      fun _ hk => (hflat hk).2.2.2, False.elim, False.elim, False.elim⟩

theorem FlatReady.sound (h : f.FlatReady) (hr : f.Reached) (hv : f.Verified) (vars : Variables) :
    f.Sound flatTerms vars :=
  h.shaped.sound (fun _ => h.bits) hr hv vars

/-- The accesses that a split works on. -/
def splitsFlat (modes : Mode) : Intrinsic → Bool
  | .loadInput => modes.input
  | .storeOutput => modes.output
  | _ => false

/-- What a split puts in place of a flat access. -/
def FlatPiece (body : Body) : Prop := body.isWide = false ∧ body.isPlaceSlot 0 = false

theorem FlatPiece.mapSrcs (body : Body) (ρ : Nat → ValueId → ValueId) (h : FlatPiece body) :
    FlatPiece (body.mapSrcs ρ) := by
  rwa [FlatPiece, Body.isWide_mapSrcs, Body.isPlaceSlot_mapSrcs]

/-- A step of the split: it keeps the terms and loses no run. -/
structure FlatStep [FloatOps] (T : Terms) (vars : Variables) (f : Function) (i : InstrId)
    (g : Function) : Prop where
  sound : g.Sound T vars
  traded : Traded FlatPiece f i g
  refines : T.narrow → ∀ vars, Refines f vars g vars

theorem meets_channelLoad {a : Access} {offset : ValueId} {k bits : Nat}
    (hc : a.component + a.width ≤ 256) (hk : k < a.width) (hbits : T.narrow → bits = 32)
    (hoff : T.apart → f.isPlace offset = false) :
    (channelLoad a offset k).Meets T vars f (some ⟨1, bits⟩) := by
  refine ⟨?_, ?_, fun _ => ⟨rfl, by simp [Intrinsic.hasWriteMask, Intrinsic.isStore]⟩, ?_⟩
  · rintro hT _ ⟨rfl⟩
    exact hbits hT
  · rintro _ ⟨rfl⟩
    refine ⟨rfl, by simp [Intrinsic.hasDest, Intrinsic.isStore], by simp, ?_,
      by simp [Intrinsic.isDerefAccess], ?_, by simp [Intrinsic.storedSlot?]⟩
    · intro _ _
      change a.component + k + 1 ≤ 256
      omega
    · rintro _ _ _ ⟨rfl⟩
      rfl
  · intro hT slot v hv hp
    obtain rfl : offset = v := by
      cases slot with
      | zero => simpa [channelLoad, Body.srcs] using hv
      | succ slot => simp [channelLoad, Body.srcs] at hv
    simp [hoff hT] at hp

theorem meets_channelStore {a : Access} {lane offset : ValueId} {k bits : Nat}
    (hc : a.component + a.width ≤ 256) (hk : k < a.width)
    (hshape : f.shape? lane = some ⟨1, bits⟩) (hlane : T.apart → f.isPlace lane = false)
    (hoff : T.apart → f.isPlace offset = false) :
    (channelStore a lane offset k).Meets T vars f none := by
  refine ⟨by simp, ?_, fun _ => ⟨rfl, fun _ => maskFrom_one⟩, ?_⟩
  · rintro _ ⟨rfl⟩
    refine ⟨rfl, by simp [Intrinsic.hasDest, Intrinsic.isStore], by simp, ?_,
      by simp [Intrinsic.isDerefAccess], by simp, ?_⟩
    · intro _ _
      change a.component + k + 1 ≤ 256
      omega
    · intro _ _ slot v s hslot hv hs
      obtain rfl : 0 = slot := by simpa [Intrinsic.storedSlot?] using hslot
      obtain rfl : lane = v := by simpa using hv
      obtain rfl : ⟨1, bits⟩ = s := by simpa [hshape] using hs
      exact le_refl 1
  · intro hT slot v hv hp
    have hmem := List.mem_of_getElem? hv
    simp only [channelStore, Body.srcs, List.mem_cons, List.not_mem_nil, or_false] at hmem
    rcases hmem with rfl | rfl
    · simp [hlane hT] at hp
    · simp [hoff hT] at hp

theorem step?_flatLoad [FloatOps] {a : Access} {offset v : ValueId} {vars : Variables} {e e₁ : Env}
    (hbody : f.body? i = some (.access a)) (hk : a.kind = .loadInput) (hsrc : a.srcs = [offset])
    (hd : f.dest? i = some v) (h4 : a.width ≤ 4) (hc : a.component + a.width ≤ 256) :
    f.step? vars i e = some e₁ ↔ ∃ slot, e.flatSlot a.base offset = some slot ∧
      e.define v (.ofList ((List.range a.width).map fun k =>
        e.io.inputs.read ⟨slot, a.component + k⟩)) = e₁ := by
  simp only [step?, hbody, hd, Option.bind_some, Env.effect, Env.access, hk, hsrc,
    List.getElem?_cons_zero, Env.loaded_eq e.io.inputs _ h4 hc]
  cases hslot : e.flatSlot a.base offset with
  | none => simp [hslot]
  | some slot => simp [hslot, Env.apply]

/-- A load whose own value is its offset never happens. -/
theorem flatLoad_stuck [FloatOps] {a : Access} {v : ValueId} {vars : Variables} {e : Env}
    (hbody : f.body? i = some (.access a)) (hk : a.kind = .loadInput) (hsrc : a.srcs = [v])
    (hv : e.values v = none) : f.step? vars i e = none := by
  simp [step?, hbody, Env.effect, Env.access, hk, hsrc, Env.flatSlot, hv]

theorem splitLoad_ok [FloatOps] (hf : f.Sound T vars) (hT : T.flat) (hi : f.home? i = some b)
    {a : Access} (hbody : f.body? i = some (.access a)) (hk : a.kind = .loadInput)
    (hw : a.width ≠ 1) (stats : SplitStats) : ∃ g, (f.splitLoad i (f.dest? i) a).run stats =
      .ok (g, stats.countLoad a.width) ∧ FlatStep T vars f i g := by
  have hfit := hf.bodies i b _ hi hbody
  have hacc := hfit.access a rfl
  have hcover : T.Covers a.kind := .inl ⟨hT, by simp [hk, Intrinsic.hasComponent]⟩
  obtain ⟨h1, h4⟩ := hacc.width hcover
  have hc := hacc.slot hT (by simp [hk, Intrinsic.hasComponent])
  obtain ⟨s, hs⟩ := Option.isSome_iff_exists.mp ((hacc.result hcover).mpr
    (by simp [hk, Intrinsic.hasDest, Intrinsic.isStore]))
  obtain ⟨v, hd, hshape⟩ := Option.bind_eq_some_iff.mp hs
  obtain ⟨x, hx, rfl⟩ := Option.map_eq_some_iff.mp hshape
  obtain ⟨offset, hsrc⟩ : ∃ offset, a.srcs = [offset] :=
    List.length_eq_one_iff.mp (by rw [hacc.arity, hk]; rfl)
  have hoff : f.Live offset := hf.closed.live_src hi hbody (by simp [Body.srcs, hsrc])
  have hsource : f.source? v = some i := (hf.tidy.linked.defined.iff i v).mp hd
  have hplace : f.isPlace v = false := by simp [isPlace_eq hsource hbody, Body.deref?]
  have hbits : T.narrow → x.shape.bits = 32 := fun hT => hfit.bits hT x.shape hs
  have hoffplace : ∀ g, f.Grows i g → T.apart → g.isPlace offset = false := by
    rintro g ⟨_, -, hg⟩ hT
    rw [hg.isPlace hf.tidy.linked.defined hoff.hasValue]
    exact hfit.notPlace hT 0 (by simp [Body.srcs, hsrc])
      (by simp [Body.isPlaceSlot, hk, Intrinsic.isDerefAccess])
  have hst := stands_before hf.tidy.linked.placed hi
  obtain ⟨done, rest, hb⟩ := List.append_of_mem (hf.tidy.linked.placed.mem_iff.mpr hi)
  have hyields : (loadChannels a x.shape.bits offset).Yields
      (T.emitted vars f FlatPiece fun z => z = offset) f i _ :=
    loadChannels_yields hoff (by omega) h4 hc
    (fun k hk' g hg => ⟨meets_channelLoad hc hk' hbits (hoffplace g hg), ⟨rfl, rfl⟩,
      by simp [channelLoad, Body.srcs]⟩)
    (fun g op vs hg hlen hop hvs => ⟨.vec hop (fun v hv => (hvs v hv).2.1) hbits
      fun _ v hv => (hvs v hv).2.2, ⟨rfl, rfl⟩, fun z hz hk => by
        have hz' : z ∈ vs := by simpa [Body.srcs, Operand.channel, Function.comp_def] using hz
        simp [(hvs z hz').1] at hk⟩)
  obtain ⟨⟨w, g, c⟩, hrun, -, news, he, hfresh, hlive, hwshape, hwplace, hgives⟩ :=
    (hyields ⟨f, .before i⟩ rfl ⟨hf.tidy, hst⟩).exists
  have hexact : T.exact → g.shape? w = f.shape? v := by
    intro hT
    rw [hwshape, hshape, ← hacc.loaded hT hcover x.shape hs]
  have hbefore : T.ordered → f.blocks.Reachable b → ∀ z, z = offset →
      ∃ d, f.source? z = some d ∧ f.Before d b done := by
    rintro hT hreach z rfl
    obtain ⟨s, hread⟩ := reads?_of_mem hi hbody (v := z) (by simp [Body.srcs, hsrc])
    exact (hf.ordered hT).operand b done i rest s z hreach hb hread
  obtain ⟨k, h, hkr, hkh, hsound, htraded, hr⟩ := he.trade_load hf (.refl vars) hb hd hplace hfresh
    hlive hwplace hexact hbefore FlatPiece.mapSrcs
  refine ⟨h, ?_, hsound, htraded, fun hT vars' => ?_⟩
  · have hval : f.value v = .ok x := value_eq_ok.mpr hx
    have hsrc0 : a.src 0 = .ok offset := by simp [Access.src, hsrc]
    have hbuild : f.build (.before i) (loadChannels a x.shape.bits offset) = .ok (w, g) := by
      simp only [build, hrun, ok_bind]
      rfl
    simp only [splitLoad, hd, Checked.orElse, lift_ok_bind, hval, hsrc0, hbuild, hkr, hkh]
    rfl
  · refine he.refines_load hf.tidy hi hd hfresh (.refl vars') hr ?_
    intro io done rest e e₁ e' ha hb hstep htr
    obtain ⟨slot, hslot, rfl⟩ := (step?_flatLoad hbody hk hsrc hd h4 hc).mp hstep
    have hne : offset ≠ v := by
      rintro rfl
      have hnone := undefined_of_stuck hf.tidy.linked.defined hd
        (fun e => flatLoad_stuck hbody hk hsrc) ha
      simp [Env.flatSlot, hnone] at hslot
    refine ⟨?_, _, rfl, ?_⟩
    · intro n hn body hbody z hz
      obtain ⟨_, body', -, hbody', hp, -⟩ := he.mem_new hn
      obtain rfl : body = body' := by simpa [hbody] using hbody'
      rintro rfl
      exact hne (hp.2.2 z hz (hasValue_iff.mpr ⟨x, hx⟩)).symm
    · have hslot' : e'.flatSlot a.base offset = some slot := by
        have hold := (htr.holds hoff.hasValue).flatSlot a.base
        rwa [handOver, if_neg hne, hslot] at hold
      have hx := hgives (hbits hT) vars' e' slot hslot'
      rwa [htr.io] at hx

theorem step?_flatStore [FloatOps] {a : Access} {stored offset : ValueId} {vars : Variables}
    {e e₁ : Env} (hbody : f.body? i = some (.access a)) (hk : a.kind = .storeOutput)
    (hsrc : a.srcs = [stored, offset]) (h : f.step? vars i e = some e₁) :
    ∃ slot x out, e.flatSlot a.base offset = some slot ∧ e.values stored = some x ∧
      (List.range a.width).foldlM (Machine.store slot a.component a.writeMask x) e.io.outputs =
        .ok out ∧ e₁ = { e with io := { e.io with outputs := out } } := by
  simp only [step?, hbody, Option.bind_some, Env.effect, Env.access, hk, hsrc,
    List.getElem?_cons_zero, List.getElem?_cons_succ, Env.stored, Option.bind_eq_bind,
    Option.map_eq_some_iff, Option.bind_eq_some_iff, toOption_eq_some] at h
  obtain ⟨_, ⟨x, hx, slot, hslot, out, hout, rfl⟩, rfl⟩ := h
  exact ⟨slot, x, out, hslot, hx, hout, rfl⟩

theorem Sound.dest_store (hf : f.Sound T vars) (hT : T.flat) (hi : f.home? i = some b)
    {a : Access} (hbody : f.body? i = some (.access a)) (hk : a.kind = .storeOutput) :
    f.dest? i = none := by
  have hcover : T.Covers a.kind := .inl ⟨hT, by simp [hk, Intrinsic.hasComponent]⟩
  rw [← Option.not_isSome_iff_eq_none, ← hf.tidy.linked.defined.isSome_destShape,
    ((hf.bodies i b _ hi hbody).access a rfl).result hcover]
  simp [hk, Intrinsic.hasDest, Intrinsic.isStore]

theorem splitStore_ok [FloatOps] (hf : f.Sound T vars) (hT : T.flat) (hi : f.home? i = some b)
    {a : Access} (hbody : f.body? i = some (.access a)) (hk : a.kind = .storeOutput)
    (stats : SplitStats) : ∃ g written, (f.splitStore i a).run stats =
      .ok (g, stats.countStore written) ∧ FlatStep T vars f i g := by
  have hfit := hf.bodies i b _ hi hbody
  have hacc := hfit.access a rfl
  have hcover : T.Covers a.kind := .inl ⟨hT, by simp [hk, Intrinsic.hasComponent]⟩
  obtain ⟨h1, h4⟩ := hacc.width hcover
  have hc := hacc.slot hT (by simp [hk, Intrinsic.hasComponent])
  have hd := hf.dest_store hT hi hbody hk
  obtain ⟨stored, offset, hsrc⟩ : ∃ stored offset, a.srcs = [stored, offset] :=
    List.length_eq_two.mp (by rw [hacc.arity, hk]; rfl)
  have hstored : f.Live stored := hf.closed.live_src hi hbody (by simp [Body.srcs, hsrc])
  have hoff : f.Live offset := hf.closed.live_src hi hbody (by simp [Body.srcs, hsrc])
  obtain ⟨s, hshape⟩ := exists_shape hstored.hasValue
  have hbits : T.narrow → s.bits = 32 := fun hT => hf.bits hT hstored hshape
  have hwide : T.exact → a.width ≤ s.width := fun hT => hacc.stored hT hcover 0 stored s
    (by simp [hk, Intrinsic.storedSlot?]) (by simp [hsrc]) hshape
  have hplace : ∀ (slot : Nat) z, a.srcs[slot]? = some z → ∀ g, f.Grows i g → T.apart →
      g.isPlace z = false := by
    rintro slot z hz g ⟨_, -, hg⟩ hT
    have hlive := hf.closed.live_src hi hbody (List.mem_of_getElem? hz)
    rw [hg.isPlace hf.tidy.linked.defined hlive.hasValue]
    exact hfit.notPlace hT slot hz
      (by simp [Body.isPlaceSlot, hk, Intrinsic.isDerefAccess])
  have htaken : ∀ g w, f.Grows i g → f.Taken g stored w → T.apart → g.isPlace w = false := by
    rintro g w hg (rfl | ⟨-, hw⟩) hT
    · exact hplace 0 w (by simp [hsrc]) g hg hT
    · exact hw
  have hold : ∀ g w, f.Taken g stored w → f.hasValue w → w = stored := by
    rintro g w (rfl | ⟨hw, -⟩) hk
    · rfl
    · simp [hw] at hk
  have hst := stands_before hf.tidy.linked.placed hi
  obtain ⟨done, rest, hb⟩ := List.append_of_mem (hf.tidy.linked.placed.mem_iff.mpr hi)
  have hbefore : T.ordered → f.blocks.Reachable b → ∀ z, z = stored ∨ z = offset →
      ∃ d, f.source? z = some d ∧ f.Before d b done := by
    intro hT hreach z hz
    obtain ⟨s, hread⟩ := reads?_of_mem hi hbody (v := z) (by simpa [Body.srcs, hsrc] using hz)
    exact (hf.ordered hT).operand b done i rest s z hreach hb hread
  have hyields : (storeChannels a stored offset).Yields
      (T.emitted vars f FlatPiece fun z => z = stored ∨ z = offset) f i _ :=
    storeChannels_yields hstored hshape hoff h1 h4 hc ?_ ?_ ?_
  · obtain ⟨⟨written, g, c⟩, hrun, -, news, he, hwrites⟩ :=
      (hyields ⟨f, .before i⟩ rfl ⟨hf.tidy, hst⟩).exists
    obtain ⟨h, hh, hsound, htraded, hr⟩ := he.trade_store hf (.refl vars) hb hd hbefore
      FlatPiece.mapSrcs
    refine ⟨h, written, ?_, hsound, htraded, fun hT vars' => ?_⟩
    · have hsrc0 : a.src 0 = .ok stored := by simp [Access.src, hsrc]
      have hsrc1 : a.src 1 = .ok offset := by simp [Access.src, hsrc]
      have hbuild : f.build (.before i) (storeChannels a stored offset) = .ok (written, g) := by
        simp only [build, hrun, ok_bind]
        rfl
      simp only [splitStore, lift_ok_bind, hsrc0, hsrc1, hbuild, hh]
      rfl
    · refine he.refines_store hf.tidy hi (.refl vars') hr ?_
      intro io done rest e e₁ e' ha hb hstep htr
      obtain ⟨slot, x, out, hslot, hx, hout, rfl⟩ := step?_flatStore hbody hk hsrc hstep
      refine ⟨out, rfl, hwrites (hbits hT) vars' e' slot x out ?_ ?_ ?_⟩
      · rw [← hslot]
        exact (htr.holds hoff.hasValue).flatSlot a.base
      · rw [← hx]
        exact htr.values stored hstored.hasValue
      · rw [htr.io, hout]
  · rintro o rfl hlanes
    refine ⟨.mov hshape h4 (fun hT k hk => ?_) hbits (hplace 0 _ (by simp [hsrc]) f (.refl f i)),
      ⟨rfl, rfl⟩, by simp [Body.srcs]⟩
    rw [hlanes, List.mem_range] at hk
    exact lt_of_lt_of_le hk (hwide hT)
  · rintro g w hg hwshape hw k hkw o rfl hlanes
    refine ⟨.mov (s := ⟨a.width, s.bits⟩) hwshape (by omega) (fun _ j hj => ?_) hbits
      (htaken g _ hg hw), ⟨rfl, rfl⟩, by simpa [Body.srcs] using fun hk => .inl (hold g _ hw hk)⟩
    obtain rfl : j = k := by simpa [hlanes] using hj
    exact hkw
  · intro g lane hg k hkw hlshape hl
    refine ⟨meets_channelStore hc hkw hlshape (htaken g lane hg hl)
      (hplace 1 offset (by simp [hsrc]) g hg), ⟨rfl, rfl⟩, fun z hz hk => ?_⟩
    rcases List.mem_pair.mp hz with rfl | rfl
    · exact .inl (hold g z hl hk)
    · exact .inr rfl

/-- What a split of flat accesses still has to do. -/
def FlatLeft (modes : Mode) (f : Function) (b : BlockId) (i : InstrId) : Prop :=
  f.home? i = some b ∧
    ∃ a, f.body? i = some (.access a) ∧ a.width ≠ 1 ∧ splitsFlat modes a.kind

theorem splitFlatInstr_skip {modes : Mode} (hi : f.home? i = some b)
    (hleft : ¬ f.FlatLeft modes b i) (stats : SplitStats) :
    (splitFlatInstr modes f i).run stats = .ok (f, stats) := by
  obtain ⟨x, hx, -⟩ := home?_eq_some.mp hi
  have hinstr : f.instr i = .ok x := instr_eq_ok.mpr hx
  have hbody : f.body? i = some x.body := by simp [body?, hx]
  simp only [splitFlatInstr, hinstr, lift_ok_bind]
  split
  · rename_i a ha
    split
    · rfl
    · rename_i hw
      have hnot : splitsFlat modes a.kind = false := by
        by_contra hs
        exact hleft ⟨hi, a, by rw [hbody, ha], hw, by simpa using hs⟩
      split
      · rename_i hk
        rw [hk, splitsFlat] at hnot
        simp only [hnot]
        rfl
      · rename_i hk
        rw [hk, splitsFlat] at hnot
        simp only [hnot]
        rfl
      · rfl
  · rfl

variable [FloatOps]

theorem splitFlatInstr_ok {modes : Mode} (hf : f.Sound T vars) (hT : T.flat)
    (hleft : f.FlatLeft modes b i) (stats : SplitStats) :
    ∃ g stats', (splitFlatInstr modes f i).run stats = .ok (g, stats') ∧ FlatStep T vars f i g ∧
      stats'.loads + stats'.stores = stats.loads + stats.stores + 1 := by
  obtain ⟨hi, a, hbody, hw, hs⟩ := hleft
  obtain ⟨x, hx, hxb⟩ := Option.map_eq_some_iff.mp hbody
  have hinstr : f.instr i = .ok x := instr_eq_ok.mpr hx
  have hdest : f.dest? i = x.dest := by simp [dest?, hx]
  simp only [splitFlatInstr, hinstr, lift_ok_bind, hxb, if_neg hw]
  cases hk : a.kind with
  | loadInput =>
    have hm : modes.input = true := by simpa [hk, splitsFlat] using hs
    obtain ⟨g, hg, hstep⟩ := splitLoad_ok hf hT hi hbody hk hw stats
    refine ⟨g, _, by simpa only [hm, if_true, hdest] using hg, hstep, ?_⟩
    simp only [SplitStats.countLoad]
    omega
  | storeOutput =>
    have hm : modes.output = true := by simpa [hk, splitsFlat] using hs
    obtain ⟨g, written, hg, hstep⟩ := splitStore_ok hf hT hi hbody hk stats
    refine ⟨g, _, by simpa only [hm, if_true] using hg, hstep, ?_⟩
    simp only [SplitStats.countStore]
    omega
  | _ => simp [hk, splitsFlat] at hs

/-- What a split of flat accesses does to a function while it counts. -/
structure FlatDone (T : Terms) (stats : SplitStats) (f : Function) (stats' : SplitStats)
    (g : Function) : Prop where
  refines : T.narrow → ∀ vars, Refines f vars g vars
  places : f.SamePlaces g
  count : stats'.loads + stats'.stores + g.wideAccesses.length ≤
    stats.loads + stats.stores + f.wideAccesses.length

theorem FlatStep.done {modes : Mode} {g : Function} (h : FlatStep T vars f i g)
    (hf : f.Sound T vars) (hleft : f.FlatLeft modes b i) {stats stats' : SplitStats}
    (hstats : stats'.loads + stats'.stores = stats.loads + stats.stores + 1) :
    FlatDone T stats f stats' g := by
  obtain ⟨hi, a, hbody, hw, hs⟩ := hleft
  have hplace : (Body.access a).isPlaceSlot 0 = false := by
    cases hk : a.kind with
    | loadInput => simp [Body.isPlaceSlot, hk, Intrinsic.isDerefAccess]
    | storeOutput => simp [Body.isPlaceSlot, hk, Intrinsic.isDerefAccess]
    | _ => simp [hk, splitsFlat] at hs
  have hlt := h.traded.wideAccesses_lt hf.tidy.linked.placed h.sound.tidy.linked.placed
    (fun body hn => hn.1) hi hbody (by simpa [Body.isWide] using hw)
  exact ⟨h.refines, h.traded.samePlaces hi hbody hplace fun body hn => hn.2, by omega⟩

theorem FlatStep.left {modes : Mode} {g : Function} (h : FlatStep T vars f i g) {d : BlockId}
    {j : InstrId} (hj : g.FlatLeft modes d j) : j ≠ i ∧ f.FlatLeft modes d j := by
  obtain ⟨hjd, a, hbody, hw, hs⟩ := hj
  rcases h.traded.only j d _ hjd hbody with ⟨hji, hold⟩ | hn
  · obtain ⟨x, hx, -⟩ := home?_eq_some.mp hold
    have hfb : f.body? j = some x.body := by simp [body?, hx]
    obtain ⟨-, -, ρ, hρ, -⟩ := h.traded.old j d x.body hji hold hfb
    obtain ⟨a', hxb, rfl⟩ := Body.mapSrcs_eq_access.mp (Option.some.inj (hρ.symm.trans hbody))
    exact ⟨hji, hold, a', by rw [hfb, hxb], hw, hs⟩
  · simp [FlatPiece, Body.isWide, hw] at hn

/-- A split of flat accesses walks through a function, whatever else its steps keep. -/
theorem flatWalks {modes : Mode} {R : SplitStats → Function → SplitStats → Function → Prop}
    (vars : Variables) (hT : T.flat) (hrefl : ∀ stats f, f.Sound T vars → R stats f stats f)
    (htrans : ∀ s f s' g s'' h, R s f s' g → R s' g s'' h → R s f s'' h)
    (hstep : ∀ stats f i b g stats', f.Sound T vars → f.FlatLeft modes b i →
      (splitFlatInstr modes f i).run stats = .ok (g, stats') → FlatStep T vars f i g →
      stats'.loads + stats'.stores = stats.loads + stats.stores + 1 → R stats f stats' g) :
    Walks (splitFlatInstr modes) (fun _ f => f.Sound T vars) R (fun _ => FlatLeft modes) := by
  refine ⟨hrefl, htrans, fun _ f hf => hf.tidy.linked.placed, fun _ f b j hj => hj.1,
    fun stats f i b hf hi => ?_⟩
  by_cases hleft : f.FlatLeft modes b i
  · obtain ⟨g, stats', hg, hflat, hstats⟩ := splitFlatInstr_ok hf hT hleft stats
    refine ⟨g, stats', hg, hflat.sound, hstep stats f i b g stats' hf hleft hg hflat hstats,
      fun j d hji hj => ?_, fun d j hj => hflat.left hj⟩
    obtain ⟨x, hx, -⟩ := home?_eq_some.mp hj
    exact (hflat.traded.old j d x.body hji hj (by simp [body?, hx])).1
  · refine ⟨f, stats, splitFlatInstr_skip hi hleft stats, hf, hrefl stats f hf,
      fun j d _ hj => hj, fun d j hj => ⟨?_, hj⟩⟩
    rintro rfl
    obtain rfl : b = d := by simpa [hi] using hj.1
    exact hleft hj

theorem splitFlat_ok (hf : f.Sound T vars) (hT : T.flat) (modes : Mode) (stats : SplitStats) :
    ∃ g stats', (f.splitFlat modes).run stats = .ok (g, stats') ∧ g.Sound T vars ∧
      FlatDone T stats f stats' g ∧ ∀ b i, ¬ g.FlatLeft modes b i := by
  refine (flatWalks vars hT
    (fun stats f _ => ⟨fun _ vars => .refl f vars, .refl f, le_refl _⟩) ?_ ?_).layout hf
  · intro s f s' g s'' h hfg hgh
    exact ⟨fun hT vars => (hfg.refines hT vars).trans (hgh.refines hT vars),
      hfg.places.trans hgh.places, hgh.count.trans hfg.count⟩
  · intro stats f i b g stats' hf hleft _ hstep hstats
    exact hstep.done hf hleft hstats

end Function

/-- Splitting the flat inputs and outputs of a shader that passes the check keeps what its runs
leave outside. -/
theorem Shader.splitFlat_preserves [FloatOps] (s : Shader) (modes : Mode)
    (hreached : ∀ f ∈ s.functions, f.Reached) (hcheck : s.check = .ok (.ok ()))
    (hready : ∀ f ∈ s.functions, f.FlatReady) :
    ∃ stats s', s.splitFlat modes = .ok (stats, s') ∧ ∀ io io' limit,
      s.run io limit = some ⟨io', none⟩ → ∃ limit', s'.run io limit' = some ⟨io', none⟩ := by
  have hverified := Shader.verified_of_check hreached hcheck
  have hsound : ∀ f ∈ s.functions, f.Sound Function.flatTerms s.vars :=
    fun f hf => (hready f hf).sound (hreached f hf) (hverified f hf) s.vars
  have hfunctions : ∀ f ∈ s.functions, ∀ stats, ∃ g stats',
      (f.splitFlat modes).run stats = .ok (g, stats') ∧
        g.Defined ∧ Function.Refines f s.vars g s.vars := by
    intro f hf stats
    obtain ⟨g, stats', hg, hsound', hdone, -⟩ :=
      Function.splitFlat_ok (hsound f hf) trivial modes stats
    exact ⟨g, stats', hg, hsound'.tidy.linked.defined, hdone.refines trivial s.vars⟩
  obtain ⟨functions, stats, hrun, hall⟩ := mapM_run hfunctions .zero
  refine ⟨stats, { s with functions }, ?_, fun io io' limit => ?_⟩
  · simp only [Shader.splitFlat, hrun, ok_bind]
    rfl
  · exact Shader.run_of_refines (fun f hf => (hreached f hf).linked.defined) hall

/-- A load at an offset that is loaded itself, a store of fewer channels than its value has, and a
loop that ends once a loaded value is zero. -/
def channelEdits : List Edit :=
  [.insert (.stop ⟨0⟩) (.const [0]) (some ⟨1, 32⟩),
    .insert (.stop ⟨0⟩) (.access ⟨.loadInput, 3, [⟨0⟩], 0, 1, 0⟩) (some ⟨3, 32⟩),
    .insert (.stop ⟨0⟩) (.access ⟨.loadInput, 2, [⟨1⟩], 1, 0, 0⟩) (some ⟨2, 32⟩),
    .insert (.stop ⟨0⟩) (.access ⟨.storeOutput, 2, [⟨1⟩, ⟨0⟩], 0, 2, 2⟩) none,
    .addBlock, .addBlock, .setTerminator ⟨0⟩ (.jump ⟨1⟩),
    .setTerminator ⟨1⟩ (.branch ⟨2⟩ ⟨1⟩ ⟨2⟩)]

def channelShader : Shader := ⟨.fragment, .empty, [Edit.outcome channelEdits]⟩

theorem splitFlat_preserves_channelShader :
    (Edit.outcome channelEdits).Reached ∧ (Edit.outcome channelEdits).FlatReady ∧
      channelShader.check = .ok (.ok ()) ∧
      channelShader.run ⟨[(⟨0, 2⟩, 7)], [], []⟩ 4 =
        some ⟨⟨[(⟨0, 2⟩, 7)], [], [(⟨0, 3⟩, 7)]⟩, none⟩ ∧
      ∃ stats s' limit', channelShader.splitFlat .inOut = .ok (stats, s') ∧
        s'.run ⟨[(⟨0, 2⟩, 7)], [], []⟩ limit' =
          some ⟨⟨[(⟨0, 2⟩, 7)], [], [(⟨0, 3⟩, 7)]⟩, none⟩ := by
  have hreached := Function.Reached.outcome channelEdits
  have hready : (Edit.outcome channelEdits).FlatReady := by decide +kernel
  have hcheck : channelShader.check = .ok (.ok ()) := rfl
  have hrun : channelShader.run ⟨[(⟨0, 2⟩, 7)], [], []⟩ 4 =
      some ⟨⟨[(⟨0, 2⟩, 7)], [], [(⟨0, 3⟩, 7)]⟩, none⟩ := rfl
  obtain ⟨stats, s', hs', hpreserves⟩ := Shader.splitFlat_preserves channelShader
    .inOut (by simpa [channelShader] using hreached) hcheck
    (by simpa [channelShader] using hready)
  obtain ⟨limit', hlimit⟩ := hpreserves _ _ 4 hrun
  exact ⟨hreached, hready, hcheck, hrun, stats, s', limit', hs', hlimit⟩

end ShaderSSA
