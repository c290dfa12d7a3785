import ShaderSSA.Proofs.ChannelTable

/-! What becomes of the accesses to variables that are split. In the place of an access there comes,
for each channel that it reaches, one access to the variable for that channel, and no other accesses
come in. -/

namespace ShaderSSA

namespace Function

variable {f g k f₀ : Function} {i j n : InstrId} {b : BlockId} {v : ValueId} {root source : VarId}
  {stage : Stage} {modes : Mode} {vars vars' : Variables} {t t' : Splitting} {a : Access}
  {l l' : List ChannelVar} {channel : Nat} {kind : Intrinsic} {news : List InstrId}

/-- Whatever goes through a chain went through it at the start. -/
def Backed (f₀ f : Function) : Prop :=
  ∀ i b a v d root, f.home? i = some b → f.Aims i a v d root → f₀.home? i = some b ∧
    ∃ srcs d', f₀.Aims i { a with srcs } v d' root ∧ d'.mode = d.mode

theorem Backed.refl (f : Function) : f.Backed f :=
  fun _ _ a _ d _ hi ha => ⟨hi, a.srcs, d, ha, rfl⟩

theorem Backed.shifts (h : f₀.Backed f) (hs : f.Shifts g) (hf : f.Linked) : f₀.Backed g := by
  intro i b a v d root hi ha
  obtain ⟨hi₁, srcs₁, d₁, ha₁, hmode₁⟩ := ha.of_shifts hs hf hi
  obtain ⟨hi₀, srcs₀, d₀, ha₀, hmode₀⟩ := h i b _ v d₁ root hi₁ ha₁
  exact ⟨hi₀, srcs₀, d₀, ha₀, hmode₀.trans hmode₁⟩

theorem Splits.grows (h : f.Splits stage modes vars i a v root) (hg : f.Laid j news g) :
    g.Splits stage modes vars i a v root := by
  obtain ⟨d, hd, hmode⟩ := h.mode
  have hkept : f.Kept g := ⟨hg.grown.old, hg.grown.source⟩
  exact ⟨hg.grows.body h.body, h.wide, h.kind, h.head, ⟨d, hkept.deref hd, hmode⟩,
    h.chain.grows hg.grows fun _ _ => trivial, h.var⟩

theorem Splits.eligible (h : f.Splits stage modes vars i a v root) (hi : f.SmallAt i) :
    f.Eligible stage modes vars i := by
  refine ⟨a, h.body, hi, fun w r x hw hr _ => ?_⟩
  obtain rfl : v = w := by simpa [h.head] using hw
  obtain rfl := hr.unique h.chain
  exact h

theorem Leaves.underway (h : f.Leaves k i g) (hl : f.Laid i news k)
    (hs : f.Splits stage modes vars i a v root) (hi : f.SmallAt i) :
    Underway stage modes vars k t g := by
  have hsk := hs.grows hl
  have hsmall : k.SmallAt i :=
    (smallAt_access hsk.body).mpr ((smallAt_access hs.body).mp hi)
  have hk : Underway stage modes vars k t k := .refl hl.reached t
  have he := hsk.eligible hsmall
  cases h with
  | store hr => exact hk.remove he hr
  | load hd _ hw hl' hr =>
    obtain ⟨x, hx, hxd⟩ := Option.bind_eq_some_iff.mp hd
    have hdest := (hl.grown.destOld hx).trans hd
    exact (hk.replaceUses (hk.isPlace_dest hsk.body hdest) hw hl').remove he hr

theorem Leaves.home (h : f.Leaves k i g) (hn : n ≠ i) : g.home? n = k.home? n := by
  cases h with
  | store hr => rw [(dropped_of_remove hr).home, if_neg hn]
  | load _ _ _ hl hr =>
    rw [(dropped_of_remove hr).home, if_neg hn, (handed_of_replaceUses hl).home]

theorem Reaches.home (h : f.Reaches l source channel kind n) : ∃ b, f.home? n = some b := by
  obtain ⟨b, _, _, _, hb, _⟩ := h
  exact ⟨b, hb⟩

theorem Reaches.mono (h : f.Reaches l source channel kind n) (hl : l ⊆ l') :
    f.Reaches l' source channel kind n := by
  obtain ⟨b, a, d, c, hb, ha, hk, hw, hlen, hd, hc, hrest⟩ := h
  exact ⟨b, a, d, c, hb, ha, hk, hw, hlen, hd, hl hc, hrest⟩

theorem Reaches.underway (h : f.Reaches l source channel kind n)
    (hu : Underway stage modes vars f t g) (hn : g.home? n = f.home? n) :
    g.Reaches l source channel kind n := by
  obtain ⟨b, a, d, c, hb, ha, hk, hw, hlen, hd, hc, hsource, hchannel, hstand⟩ := h
  have hsmall := (smallAt_access ha).mpr hlen
  obtain ⟨srcs, hsrcs, hhead⟩ := hu.access ha
  exact ⟨b, { a with srcs }, d, c, hn.trans hb, hsrcs, hk, hw,
    (smallAt_access hsrcs).mp (hu.smallAt hsmall ha), hhead hsmall d hd hstand.isPlace, hc,
    hsource, hchannel, hu.standing hstand⟩

theorem home_of_drops (h : Relation.ReflTransGen DropsDeref f g)
    (ha : f.body? n = some (.access a)) : g.home? n = f.home? n := by
  suffices g.body? n = some (.access a) ∧ g.home? n = f.home? n from this.2
  induction h with
  | refl => exact ⟨ha, rfl⟩
  | tail _ hstep ih =>
    obtain ⟨i, d, hd, hr⟩ := hstep
    have hg := dropped_of_remove hr
    refine ⟨by rw [hg.body, ih.1], ?_⟩
    rw [hg.home, if_neg, ih.2]
    rintro rfl
    simp [ih.1] at hd

theorem Reaches.drops (h : f.Reaches l source channel kind n) (hf : f.Linked)
    (hd : Relation.ReflTransGen DropsDeref f g) : g.Reaches l source channel kind n := by
  obtain ⟨b, a, d, c, hb, ha, hk, hw, hlen, hhead, hc, hsource, hchannel, hstand⟩ := h
  have hread : f.reads? ⟨n, 0⟩ = some d := reads?_iff.mpr ⟨b, _, hb, ha, hhead⟩
  obtain ⟨us, hus⟩ : ∃ us, f.uses? d = some us := by
    obtain ⟨x, hx⟩ := hasValue_iff.mp (hasValue_of_isPlace hstand.isPlace)
    exact ⟨x.uses, by simp [uses?, hx]⟩
  have hmem := ((hf.recordedBy n ((smallAt_access ha).mpr hlen)).mem_iff hus).mpr hread
  obtain ⟨S, hshed⟩ := shed_of_drops hd
  exact ⟨b, a, d, c, (home_of_drops hd ha).trans hb, by rw [hshed.body, ha], hk, hw, hlen, hhead,
    hc, hsource, hchannel, standing_of_drops hf hstand hus hmem ha hd⟩

/-- What has become of the accesses of `f₀`. Those that are gone were to be split, `pieces` says
which accesses stand in their place and for which of their channels, and no others have come in. -/
structure Accounts (stage : Stage) (modes : Mode) (vars : Variables) (f₀ : Function)
    (l : List ChannelVar) (f : Function) (pieces : InstrId → List (Nat × InstrId)) : Prop where
  gone : ∀ j b a, f₀.home? j = some b → f₀.body? j = some (.access a) → f.home? j = none →
    ∃ v root x, f₀.Splits stage modes vars j a v root ∧ vars.get? root = some x ∧
      (pieces j).map (·.1) = a.hits ∧ ∀ p ∈ pieces j, f₀.body? p.2 = none ∧
        f.Reaches l root (x.channel + p.1) a.kind p.2
  new : ∀ n b a, f₀.body? n = none → f.home? n = some b → f.body? n = some (.access a) →
    ∃ j d a, f₀.home? j = some d ∧ f₀.body? j = some (.access a) ∧ f.home? j = none ∧
      n ∈ (pieces j).map (·.2)

namespace Accounts

variable {pieces : InstrId → List (Nat × InstrId)} {emitted : List (Nat × InstrId)}

theorem start (f : Function) (l : List ChannelVar) :
    Accounts stage modes vars f l f fun _ => [] where
  gone j b a hj _ hgone := by simp [hj] at hgone
  new n b a hn hb _ := by
    obtain ⟨body, hbody⟩ := exists_body hb
    simp [hn] at hbody

theorem mono (h : Accounts stage modes vars f₀ l f pieces) (hl : l ⊆ l') :
    Accounts stage modes vars f₀ l' f pieces where
  gone j b a hj ha hgone := by
    obtain ⟨v, root, x, hs, hx, hhits, hall⟩ := h.gone j b a hj ha hgone
    exact ⟨v, root, x, hs, hx, hhits, fun p hp => ⟨(hall p hp).1, (hall p hp).2.mono hl⟩⟩
  new := h.new

theorem drops (h : Accounts stage modes vars f₀ l f pieces) (hu : Underway stage modes vars f₀ t f)
    (hd : Relation.ReflTransGen DropsDeref f g) : Accounts stage modes vars f₀ l g pieces where
  gone j b a hj ha hgone := by
    obtain ⟨srcs, hsrcs, -⟩ := hu.access ha
    rw [home_of_drops hd hsrcs] at hgone
    obtain ⟨v, root, x, hs, hx, hhits, hall⟩ := h.gone j b a hj ha hgone
    exact ⟨v, root, x, hs, hx, hhits,
      fun p hp => ⟨(hall p hp).1, (hall p hp).2.drops hu.reached.linked hd⟩⟩
  new n b a hn hb ha := by
    obtain ⟨S, hshed⟩ := shed_of_drops hd
    obtain ⟨j, d, a', hj, ha', hgone, hmem⟩ :=
      h.new n b a hn (hshed.home_before hb) (by rw [← hshed.body, ha])
    refine ⟨j, d, a', hj, ha', Option.eq_none_iff_forall_ne_some.mpr fun e he => ?_, hmem⟩
    simp [hshed.home_before he] at hgone

theorem leaves (h : Accounts stage modes vars f₀ l f pieces)
    (hu : Underway stage modes vars f₀ t f) (hf : Underway stage modes vars' f t' g)
    (hk : Underway stage modes vars' k t' g) (hi : f.home? i = some b) (hlaid : f.Laid i news k)
    (hleaves : f.Leaves k i g) (hgone : g.home? i = none)
    (hs : f₀.Splits stage modes vars i a v root) {x : Variable} (hx : vars.get? root = some x)
    (he : ChannelBuild.Emission l' root x.channel a.kind a.hits emitted news k) (hl : l ⊆ l') :
    Accounts stage modes vars f₀ l' g fun j => if j = i then emitted else pieces j := by
  have hhome : ∀ {m c}, m ≠ i → f.home? m = some c → g.home? m = some c :=
    fun hm hc => (hleaves.home hm).trans (hlaid.grows.home hc)
  constructor
  · intro j c a' hj ha' hnone
    by_cases hji : j = i
    · subst hji
      obtain rfl : a' = a := by simpa [ha'] using hs.body
      refine ⟨v, root, x, hs, hx, by rw [if_pos rfl, he.hits], fun p hp => ?_⟩
      rw [if_pos rfl] at hp
      have hmem := he.mem p hp
      have hne : p.2 ≠ j := fun hpj => hlaid.apart (hpj ▸ hmem)
      exact ⟨hu.absent (hlaid.body_new hmem), (he.reaches p hp).underway hk (hleaves.home hne)⟩
    · have hnone' : f.home? j = none :=
        Option.eq_none_iff_forall_ne_some.mpr fun d hd => by simp [hhome hji hd] at hnone
      obtain ⟨v', root', x', hs', hx', hhits, hall⟩ := h.gone j c a' hj ha' hnone'
      refine ⟨v', root', x', hs', hx', by rw [if_neg hji, hhits], fun p hp => ?_⟩
      rw [if_neg hji] at hp
      obtain ⟨hnew, hreach⟩ := hall p hp
      have hne : p.2 ≠ i := by
        rintro hpi
        simp [hpi, hs.body] at hnew
      obtain ⟨d, hd⟩ := hreach.home
      exact ⟨hnew, (hreach.underway hf ((hhome hne hd).trans hd.symm)).mono hl⟩
  · intro n c a' hn hc ha'
    -- What comes in is one of the pieces, or came in before.
    cases hb : f.body? n with
    | none =>
      have hni : n ≠ i := by
        rintro rfl
        simp [hgone] at hc
      rw [hleaves.home hni] at hc
      have hmem := hlaid.mem_news hu.reached.linked hc hb
      obtain ⟨body, hbody⟩ := exists_body hc
      obtain ⟨a₁, rfl⟩ := hk.access_start hbody ha'
      refine ⟨i, b, a, hu.old i b _ hs.body hi, hs.body, hgone, ?_⟩
      rw [if_pos rfl]
      exact he.all n hmem a₁ hbody
    | some body =>
      obtain ⟨a₁, rfl⟩ := hf.access_start hb ha'
      obtain ⟨j, d, a₂, hj, ha₂, hnone, hmem⟩ := h.new n c a₁ hn (hf.old n c _ hb hc) hb
      have hji : j ≠ i := by
        rintro rfl
        simp [hi] at hnone
      obtain ⟨srcs, hsrcs, -⟩ := hu.access ha₂
      exact ⟨j, d, a₂, hj, ha₂, hf.home_none hsrcs hnone, by rwa [if_neg hji]⟩

end Accounts

/-- Whatever is accessed through a chain has the mode of the variable that the chain leads to. -/
def CarriesModes (vars : Variables) (f : Function) : Prop :=
  ∀ i b a, f.home? i = some b → f.body? i = some (.access a) → ∀ v d root, a.srcs[0]? = some v →
    f.deref v = .ok (some d) → f.derefRoot v = .ok (some root) →
    ∃ x, vars.get? root = some x ∧ d.mode = x.mode

/-- What the visits to `f₀` keep, where `D` says which variables are dropped. -/
structure Keeping (stage : Stage) (modes : Mode) (vars : Variables) (D : VarId → Prop)
    (f₀ : Function) (t : Splitting) (f : Function) : Prop where
  tabled : t.Tabled vars
  drops : ∀ c ∈ t.channels, D c.source
  backed : f₀.Backed f
  accounts : ∃ pieces, Accounts stage modes vars f₀ t.channels f pieces

variable {D : VarId → Prop}

theorem splitVarInstr_keeping (hmodes : f₀.CarriesModes vars)
    (hdrops : ∀ i b a v root, f₀.home? i = some b → f₀.Splits stage modes vars i a v root →
      a.srcs.length ≤ 256 → a.Emits → D root)
    (hu : Underway stage modes vars f₀ t f) (h : Keeping stage modes vars D f₀ t f)
    (hi : f.home? i = some b) (hrun : (splitVarInstr stage modes f i).run t = .ok (g, t')) :
    Keeping stage modes vars D f₀ t' g := by
  obtain ⟨-, ⟨rfl, rfl, -⟩ | ⟨a, v, root, hs, hr, hsplit⟩⟩ := splitVarInstr_visit hrun
  · exact h
  obtain ⟨d, haims, hmode⟩ := hs.aims
  obtain ⟨hi₀, srcs, d₀, haims₀, hsame⟩ := h.backed i b a v d root hi haims
  obtain ⟨x, hx, -⟩ := hmodes i b _ hi₀ haims₀.body v d₀ root haims₀.head haims₀.deref
    haims₀.chain.derefRoot
  obtain ⟨y, hy, hcan⟩ := hs.var
  obtain rfl : x = y := by simpa [h.tabled.kept root x hx] using hy
  have hs₀ : f₀.Splits stage modes vars i { a with srcs } v root :=
    haims₀.splits (by rwa [hsame]) hx hcan
  have htake := hs.takesApart hr hsplit
  obtain ⟨hsmall₀, -⟩ := hu.takesApart h.tabled.kept hs htake
  obtain ⟨hsmall, hu'⟩ := (Underway.refl hu.reached t).takesApart (.refl _) hs htake
  obtain ⟨y, k, news, emitted, hy, hlaid, hem, hleaves⟩ :=
    splitVar_lays hu.reached hi hs.wide hsplit
  obtain rfl : x = y := by simpa [h.tabled.kept root x hx] using hy
  obtain ⟨hold, hnew⟩ := htake.channels
  refine ⟨htake.tabled h.tabled hx, fun c hc => ?_,
    h.backed.shifts (hleaves.shifts hlaid hu') hu.reached.linked, ?_⟩
  · rcases hnew c hc with hc | ⟨rfl, he⟩
    · exact h.drops c hc
    · exact hdrops i b _ v _ hi₀ hs₀ ((smallAt_access hs₀.body).mp hsmall₀) he
  · obtain ⟨pieces, hp⟩ := h.accounts
    exact ⟨_, hp.leaves hu hu' (hleaves.underway hlaid hs hsmall) hi hlaid hleaves htake.gone hs₀ hx
      hem hold⟩

theorem mapM_splitVars_keeping {fs gs : List Function} (hf : ∀ f ∈ fs, f.Reached)
    (hmodes : ∀ f ∈ fs, f.CarriesModes vars)
    (hdrops : ∀ f ∈ fs, ∀ i b a v root, f.home? i = some b → f.Splits stage modes vars i a v root →
      a.srcs.length ≤ 256 → a.Emits → D root) (ht : t.Tabled vars)
    (htd : ∀ c ∈ t.channels, D c.source)
    (hrun : (fs.mapM (splitVars stage modes)).run t = .ok (gs, t')) :
    t'.Tabled vars ∧ (∀ c ∈ t'.channels, D c.source) ∧ t.channels ⊆ t'.channels ∧
      List.Forall₂ (fun f g => Through stage modes vars f t' g ∧
        ∃ pieces, Accounts stage modes vars f t'.channels g pieces) fs gs := by
  suffices h : (t'.Tabled vars ∧ ∀ c ∈ t'.channels, D c.source) ∧ t.channels ⊆ t'.channels ∧
      List.Forall₂ (fun f g => Through stage modes vars f t' g ∧
        ∃ pieces, Accounts stage modes vars f t'.channels g pieces) fs gs from
    ⟨h.1.1, h.1.2, h.2.1, h.2.2⟩
  refine SplitEdit.forall₂_of_mapM (I := fun t => t.Tabled vars ∧ ∀ c ∈ t.channels, D c.source)
    (S := fun t t' => t.channels ⊆ t'.channels)
    (R := fun t f g => Through stage modes vars f t g ∧
      ∃ pieces, Accounts stage modes vars f t.channels g pieces)
    (fun _ _ h => h) (fun h h' _ hc => h' (h hc))
    (fun h hr => ⟨hr.1.mono fun _ hc => h hc, hr.2.imp fun _ hp => hp.mono h⟩) ?_ ⟨ht, htd⟩ hrun
  rintro f hmem t g t' ⟨ht, htd⟩ hg
  have hstart : Keeping stage modes vars D f t f := ⟨ht, htd, .refl f, _, .start f t.channels⟩
  obtain ⟨hthrough, -, hkeep, hsub⟩ := splitVars_through
    (A := Keeping stage modes vars D f) (hf f hmem) ht.since hstart
    (fun _ _ _ _ _ _ hu _ h hi hrun =>
      splitVarInstr_keeping (hmodes f hmem) (hdrops f hmem) hu h hi hrun) hg
  exact ⟨⟨hkeep.tabled, hkeep.drops⟩, fun c hc => hsub c hc, hthrough, hkeep.accounts⟩

end Function

theorem Variable.canSplit_iff {x : Variable} {stage : Stage} : x.canSplit stage ↔
    x.flags.patch = false ∧ x.flags.alwaysActive = false ∧ x.type.withoutArray.is64Bit = false ∧
      x.type.withoutArray.isMatrix = false ∧ x.type.withoutArray.isRecord = false ∧
      (x.isBuiltin → stage = .vertex ∧ x.mode = .shaderIn) := by
  simp only [canSplit, Bool.and_eq_true, Bool.not_eq_true', Bool.or_eq_true, beq_iff_eq]
  cases x.isBuiltin <;> tauto

namespace Shader

variable {s s' : Shader} {modes : Mode} {stats : SplitStats}

theorem Drops.exists_var (hmodes : ∀ f ∈ s.functions, f.CarriesModes s.vars) {v : VarId}
    (h : s.Drops modes v) : ∃ x, s.vars.get? v = some x ∧ x.canSplit s.stage ∧
      (x.mode = .shaderIn ∧ modes.input ∨ x.mode = .shaderOut ∧ modes.output) := by
  obtain ⟨f, hmem, i, b, a, w, hi, hs, -⟩ := h
  obtain ⟨d, haims, hsplit⟩ := hs.aims
  obtain ⟨x, hx, hmode⟩ := hmodes f hmem i b a hi haims.body w d v haims.head haims.deref
    haims.chain.derefRoot
  obtain ⟨y, hy, hcan⟩ := hs.var
  obtain rfl : x = y := by simpa [hx] using hy
  refine ⟨x, hx, hcan, ?_⟩
  rw [← hmode]
  simp only [Function.splitsAccess] at hsplit
  split at hsplit <;> simp at hsplit <;> tauto

/-- What a split makes of the variables and of the accesses to them. The variables that are split
are those with an access that is taken apart and reaches a channel, and each access to one channel
that comes in names the variable for that channel. As many are counted as go off the list, if all
that are split were on it. -/
theorem splitVars_channels (hf : ∀ f ∈ s.functions, f.Reached)
    (hmodes : ∀ f ∈ s.functions, f.CarriesModes s.vars)
    (h : s.splitVars modes = .ok (stats, s')) : ∃ split channels,
      split.Nodup ∧ stats.vars = split.length ∧ s.vars.Channeled s'.vars split channels ∧
      List.Forall₂ (fun f g => ∃ pieces,
        Function.Accounts s.stage modes s.vars f channels g pieces) s.functions s'.functions ∧
      (∀ v, v ∈ split ↔ s.Drops modes v) ∧
      (s.vars.Reached → (∀ v ∈ split, v ∈ s.vars.declared) →
        stats.vars = (s.vars.declared.filter (· ∈ split)).length) ∧
      ∀ v ∈ split, ∃ x, s.vars.get? v = some x ∧ x.flags.patch = false ∧
        x.flags.alwaysActive = false ∧ x.type.withoutArray.is64Bit = false ∧
        x.type.withoutArray.isMatrix = false ∧ x.type.withoutArray.isRecord = false ∧
        (x.isBuiltin → s.stage = .vertex ∧ x.mode = .shaderIn) ∧
        (x.mode = .shaderIn ∧ modes.input ∨ x.mode = .shaderOut ∧ modes.output) := by
  obtain ⟨gs, t, hgs, hsweep, -, hvars, rfl⟩ := splitVars_run h
  obtain ⟨htab, hdropped, -, hall⟩ := Function.mapM_splitVars_keeping (D := s.Drops modes) hf
    hmodes (fun f hmem i b a v root hi hs hsmall he => ⟨f, hmem, i, b, a, v, hi, hs, hsmall, he⟩)
    (.start s.vars .zero) (by simp) hgs
  have hiff : ∀ v, v ∈ t.sources ↔ s.Drops modes v := by
    intro v
    rw [Splitting.mem_sources]
    constructor
    · rintro ⟨c, hc, rfl⟩
      exact hdropped c hc
    · rintro ⟨f, hmem, i, b, a, w, hi, hs, hsmall, he⟩
      obtain ⟨g, -, hthrough, -⟩ := exists_of_forall₂ hall.flip hmem
      exact (hthrough.gone i b a w v hi hs ((Function.smallAt_access hs.body).mpr hsmall)).2 he
  have hnodup : t.sources.Nodup := nodup_eraseDups _
  refine ⟨t.sources, t.channels, hnodup, rfl, hvars ▸ htab.channeled, ?_, hiff,
    fun hreached hdeclared => ?_, fun v hv => ?_⟩
  · refine forall₂_trans (fun f g k hfg hgk => ?_) hall hsweep
    obtain ⟨hthrough, pieces, hp⟩ := hfg
    exact ⟨pieces, hp.drops hthrough.toUnderway (Function.sweepWithin_drops hgk).1⟩
  · have hfiltered := hreached.nodup_declared.filter (· ∈ t.sources)
    refine ((List.perm_ext_iff_of_nodup hnodup hfiltered).mpr fun v => ?_).length_eq
    simpa using hdeclared v
  · obtain ⟨x, hx, hcan, hmode⟩ := ((hiff v).mp hv).exists_var hmodes
    obtain ⟨hpatch, hactive, hwide, hmatrix, hrecord, hbuiltin⟩ := Variable.canSplit_iff.mp hcan
    exact ⟨x, hx, hpatch, hactive, hwide, hmatrix, hrecord, hbuiltin, hmode⟩

end Shader

theorem join_toOption_eq_some {α : Type} {m : Checked (Option α)} {a : α} :
    m.toOption.join = some a ↔ m = .ok (some a) := by
  cases m <;> simp [Except.toOption]

instance (vars : Variables) (f : Function) : Decidable (f.CarriesModes vars) :=
  decidable_of_iff (∀ i ∈ f.instrs.ids, (f.home? i).isSome → ∀ a ∈ (f.body? i).bind Body.access?,
    ∀ v ∈ a.srcs[0]?, ∀ d ∈ (f.deref v).toOption.join,
    ∀ root ∈ (f.derefRoot v).toOption.join, (vars.get? root).any (d.mode = ·.mode)) <| by
    rw [f.forall_access_iff fun _ a => ∀ v ∈ a.srcs[0]?, ∀ d ∈ (f.deref v).toOption.join,
      ∀ root ∈ (f.derefRoot v).toOption.join, (vars.get? root).any (d.mode = ·.mode)]
    simp only [Option.mem_def, join_toOption_eq_some, Option.any_eq_true, decide_eq_true_eq]
    exact ⟨fun h i b a hb ha v d root hv hd => h i b a hb ha v hv d hd root,
      fun h i b a hb ha v hv d hd root => h i b a hb ha v d root hv hd⟩

theorem splitVars_channels_arrayShader :
    (Edit.outcome arrayEdits).Reached ∧ (Edit.outcome arrayEdits).CarriesModes arrayVars ∧
      ∃ stats s' split channels, arrayShader.splitVars .inOut = .ok (stats, s') ∧
        s'.vars.declared = [⟨2⟩, ⟨3⟩, ⟨4⟩, ⟨5⟩, ⟨6⟩] ∧ stats.vars = 2 ∧ split.length = 2 ∧
        (arrayVars.declared.filter (· ∈ split)).length = 2 ∧
        arrayVars.Channeled s'.vars split channels := by
  have hreached := Function.Reached.outcome arrayEdits
  have hmodes : (Edit.outcome arrayEdits).CarriesModes arrayVars := by decide +kernel
  have hafter : (arrayShader.splitVars .inOut).toOption.any (fun r => r.1.vars == 2 &&
      r.2.vars.declared == [⟨2⟩, ⟨3⟩, ⟨4⟩, ⟨5⟩, ⟨6⟩]) = true := by decide +kernel
  cases hrun : arrayShader.splitVars .inOut with
  | error e => simp [hrun, Except.toOption] at hafter
  | ok r =>
    obtain ⟨stats, s'⟩ := r
    have hs' : stats.vars = 2 ∧ s'.vars.declared = [⟨2⟩, ⟨3⟩, ⟨4⟩, ⟨5⟩, ⟨6⟩] := by
      simpa [hrun, Except.toOption] using hafter
    obtain ⟨split, channels, -, hcount, hchanneled, -, -, hlisted, hvars⟩ :=
      Shader.splitVars_channels (by simpa [arrayShader] using hreached)
        (by simpa [arrayShader] using hmodes) hrun
    have hdeclared : ∀ v ∈ split, v ∈ arrayVars.declared := by
      intro v hv
      obtain ⟨x, hx, -⟩ := hvars v hv
      exact (Arena.mem_ids arrayVars.arena v).mpr (Arena.get?_eq_some_lt hx)
    have hoff := hlisted (.add _ (.add _ .empty)) hdeclared
    exact ⟨hreached, hmodes, stats, s', split, channels, rfl, hs'.2, hs'.1, by omega,
      hoff.symm.trans hs'.1, hchanneled⟩

end ShaderSSA
