import ShaderSSA.Proofs.VarChannels

/-! Splitting variables in one function: every access to several channels of a variable that is to
be split gives way to accesses to channel variables, and no run is lost. -/

namespace ShaderSSA

namespace Function

variable {T : Terms} {vars : Variables} {f g : Function} {i : InstrId} {b : BlockId}
  {s s' : Splitting} {a : Access} {target : ValueId} {source : VarId} {x : Variable}
  {t u : VarType} {n : Nat}

/-- A step of the split: it keeps the terms and loses no run. -/
structure VarStep [FloatOps] (T : Terms) (s : Splitting) (f : Function) (i : InstrId)
    (s' : Splitting) (g : Function) : Prop where
  sane : s'.Sane
  vars : s.vars.Extends s'.vars
  sound : g.Sound T s'.vars
  traded : Traded (fun body => body.isWide = false) f i g
  refines : T.narrow → T.ordered → ∀ vars vars', vars.Extends s.vars → s'.vars.Extends vars' →
    Refines f vars g vars'
  count : s'.stats.loads + s'.stats.stores = s.stats.loads + s.stats.stores + 1

theorem buildChannels_run {α : Type} {m : ChannelBuild α} {r : α} {c : Cursor}
    (h : m.run (s, ⟨f, .before i⟩) = .ok (r, s', ⟨g, c⟩)) :
    (f.buildChannels i m).run s = .ok ((r, g), s') := by
  change ((liftM (m.run (s, ⟨f, .before i⟩)) : SplitEdit (α × Splitting × Builder)) >>= fun r => do
    set r.2.1
    return (r.1, r.2.2.func)).run s = _
  rw [h, lift_ok_bind]
  rfl

theorem slot_of_derefSlot [FloatOps] (h : Site T s.vars f i b a target source x t n u)
    (hdom : f.DominanceRespecting) (hx : vars.Extends s.vars) {io : IoState}
    {done rest : List InstrId} {e : Env} (ha : Arrives f vars io b done e)
    (hb : f.blockInstrs b = done ++ i :: rest) {y : Variable} {slot : Nat}
    (hslot : e.derefSlot vars target = some (y, slot)) :
    y = x ∧ Site.Slot f x n target e slot := by
  simp only [Env.derefSlot, Option.bind_eq_bind, Option.bind_eq_some_iff, Option.pure_def,
    Option.some.injEq, Prod.mk.injEq, toOption_eq_some] at hslot
  obtain ⟨p, hp, y, hy, slot, hfit, rfl, rfl⟩ := hslot
  obtain ⟨k, hread⟩ := reads?_of_mem h.home h.body (v := target) (List.mem_of_getElem? h.head)
  obtain ⟨d, hd, hbefore⟩ := hdom.operand b done i rest k target ha.reachable hb hread
  obtain ⟨hvar, hoffset⟩ := h.chain.place h.sound.tidy.linked.placed h.sound.tidy.linked.defined
    hdom ha hd hbefore hp
  have hsame := hx _ y hy
  rw [hvar, h.var] at hsame
  obtain rfl : x = y := Option.some.inj hsame
  exact ⟨rfl, p.offset, hoffset, hfit⟩

theorem step?_read [FloatOps] (hbody : f.body? i = some (.access a)) (hkind : a.kind.isDerefAccess)
    (hload : a.kind.isStore = false) (hhead : a.srcs[0]? = some target) {v : ValueId}
    (hd : f.dest? i = some v) {e e₁ : Env} (h : f.step? vars i e = some e₁) :
    ∃ y slot z, e.derefSlot vars target = some (y, slot) ∧
      Env.loaded (Machine.tableOf e.io y.mode) slot y.channel a.width = some (.value z) ∧
      e₁ = e.define v z := by
  have hacc : e.access vars a = (e.derefSlot vars target).bind fun r =>
      Env.loaded (Machine.tableOf e.io r.1.mode) r.2 r.1.channel a.width := by
    cases hk : a.kind <;> simp [hk, Intrinsic.isDerefAccess, Intrinsic.isStore] at hkind hload <;>
      simp [Env.access, hk, hhead]
  simp only [step?, hbody, hd, Option.bind_some, Env.effect, hacc, Option.map_eq_some_iff,
    Option.bind_eq_some_iff] at h
  obtain ⟨r, ⟨⟨y, slot⟩, hslot, hr⟩, rfl⟩ := h
  have hvalue := hr
  simp only [Env.loaded, Option.map_eq_some_iff] at hvalue
  obtain ⟨z, -, rfl⟩ := hvalue
  exact ⟨y, slot, z, hslot, hr, rfl⟩

theorem step?_write [FloatOps] (hbody : f.body? i = some (.access a)) (hkind : a.kind = .storeDeref)
    {stored : ValueId} (hsrcs : a.srcs = [target, stored]) {e e₁ : Env}
    (h : f.step? vars i e = some e₁) :
    ∃ y slot z out, e.derefSlot vars target = some (y, slot) ∧ e.values stored = some z ∧
      (List.range a.width).foldlM (Machine.store slot y.channel a.writeMask z) e.io.outputs =
        .ok out ∧ e₁ = { e with io := { e.io with outputs := out } } := by
  simp only [step?, hbody, Option.bind_some, Env.effect, Env.access, hkind, hsrcs,
    List.getElem?_cons_zero, List.getElem?_cons_succ, Env.stored, Option.bind_eq_bind,
    Option.map_eq_some_iff, Option.bind_eq_some_iff, toOption_eq_some] at h
  obtain ⟨_, ⟨⟨y, slot⟩, hslot, z, hz, out, hout, rfl⟩, rfl⟩ := h
  exact ⟨y, slot, z, out, hslot, hz, hout, rfl⟩

theorem isWide_pieces (body : Body) (ρ : Nat → ValueId → ValueId) (h : body.isWide = false) :
    (body.mapSrcs ρ).isWide = false := by
  rwa [Body.isWide_mapSrcs]

theorem Before.ne_dest (hf : f.Linked) {done rest : List InstrId}
    (hb : f.blockInstrs b = done ++ i :: rest) {d : InstrId} {z v : ValueId}
    (hd : f.Before d b done) (hz : f.source? z = some d) (hv : f.dest? i = some v) : z ≠ v := by
  rintro rfl
  obtain rfl : i = d := by simpa [(hf.defined.iff i z).mp hv] using hz
  exact not_before_self hf.placed hb hd

theorem splitVarLoad_ok [FloatOps] (h : Site T s.vars f i b a target source x t n u)
    (hsane : s.Sane) (hload : a.kind.isStore = false) :
    ∃ g s', (f.splitVarLoad i (f.dest? i) a source).run s = .ok (g, s') ∧
      VarStep T s f i s' g := by
  have hf := h.sound
  have hlinked := hf.tidy.linked
  have hfit := hf.bodies i b _ h.home h.body
  have hacc := hfit.access a rfl
  have hcover : T.Covers a.kind := .inr ⟨h.derefs, h.kind⟩
  obtain ⟨h1, h4⟩ := hacc.width hcover
  have hlimit := h.limit
  obtain ⟨shape, hs⟩ := Option.isSome_iff_exists.mp ((hacc.result hcover).mpr
    (by simp [Intrinsic.hasDest, hload]))
  obtain ⟨v, hd, hshape⟩ := Option.bind_eq_some_iff.mp hs
  obtain ⟨y, hy, rfl⟩ := Option.map_eq_some_iff.mp hshape
  have hplace : f.isPlace v = false := by
    simp [isPlace_eq ((hlinked.defined.iff i v).mp hd) h.body, Body.deref?]
  have hwide := h.wide
  obtain ⟨w, s₁, g, c, news, hrun, hs₁, he, hfresh, hlive, hwshape, hwplace, hgives⟩ :=
    (h.loadChannels_yields (.refl s.vars) hload (by omega)
      fun hT => hfit.bits hT y.shape hs).exists hsane hf.tidy (stands_before hlinked.placed h.home)
  obtain ⟨done, rest, hb⟩ := List.append_of_mem (hlinked.placed.mem_iff.mpr h.home)
  have hexact : T.exact → g.shape? w = f.shape? v := by
    intro hT
    rw [hwshape, hshape, ← hacc.loaded hT hcover y.shape hs]
  obtain ⟨k, g', hkr, hkh, hsound, htraded, hr⟩ := he.trade_load hf hs₁.vars hb hd hplace hfresh
    hlive hwplace hexact (fun hT hreach z hz => h.before hT hreach hb z hz) isWide_pieces
  refine ⟨g', { s₁ with stats := s₁.stats.countLoad a.width }, ?_, hs₁.sane, hs₁.vars, hsound,
    htraded, fun hT hT' vars vars' hv hv' => ?_, ?_⟩
  · have hval : f.value v = .ok y := value_eq_ok.mpr hy
    simp only [splitVarLoad, hd, Checked.orElse, lift_ok_bind, hval]
    rw [StateT.run_bind, buildChannels_run hrun, ok_bind]
    simp only [hkr, hkh, lift_ok_bind]
    rfl
  · refine he.refines_load hf.tidy h.home hd hfresh (hv.trans (hs₁.vars.trans hv')) hr ?_
    intro io done rest e e₁ e' ha hb hstep htr
    have hdom := hf.ordered hT'
    obtain ⟨z, slot, lanes, hslot, hloaded, rfl⟩ :=
      step?_read h.body h.kind hload h.head hd hstep
    obtain ⟨rfl, hslot⟩ := slot_of_derefSlot h hdom hv ha hb hslot
    have hne : ∀ z, z ∈ f.indices n target ∨ z ∈ a.srcs.tail → z ≠ v := by
      intro z hz
      obtain ⟨d, hzd, hbefore⟩ := h.before hT' ha.reachable hb z hz
      exact hbefore.ne_dest hlinked hb hzd hd
    refine ⟨?_, lanes, rfl, ?_⟩
    · intro j hj body hbody q hq
      obtain ⟨_, body', -, hbody', hp, -⟩ := he.mem_new hj
      obtain rfl : body = body' := by simpa [hbody] using hbody'
      rintro rfl
      exact hne q (hp.2.2 q hq (hasValue_iff.mpr ⟨y, hy⟩)) rfl
    · have hslot' : Site.Slot f z n target e' slot := by
        obtain ⟨o, ho, hfit⟩ := hslot
        refine ⟨o, ?_, hfit⟩
        rw [← ho]
        refine offset?_congr fun q hq => ?_
        have hold := htr.values q (h.live_index hq).hasValue
        rwa [handOver, if_neg (hne q (.inl hq))] at hold
      have hfirst : z.channel + a.width ≤ 256 := by omega
      have hread := Env.loaded_eq (Machine.tableOf e.io z.mode) slot h4 hfirst
      rw [hread] at hloaded
      obtain rfl := Effect.value.inj (Option.some.inj hloaded)
      have hx := hgives (hfit.bits hT y.shape hs) vars' e' slot hv' hslot'
      rwa [htr.io] at hx
  · have hstats := hs₁.stats
    simp only [SplitStats.countLoad, hstats]
    omega

theorem splitVarStore_ok [FloatOps] (h : Site T s.vars f i b a target source x t n u)
    (hsane : s.Sane) (hstore : a.kind = .storeDeref) :
    ∃ g s', (f.splitVarStore i a source).run s = .ok (g, s') ∧ VarStep T s f i s' g := by
  have hf := h.sound
  have hlinked := hf.tidy.linked
  have hfit := hf.bodies i b _ h.home h.body
  have hacc := hfit.access a rfl
  have hcover : T.Covers a.kind := .inr ⟨h.derefs, h.kind⟩
  obtain ⟨h1, h4⟩ := hacc.width hcover
  have hd : f.dest? i = none := by
    rw [← Option.not_isSome_iff_eq_none, ← hlinked.defined.isSome_destShape, hacc.result hcover]
    simp [hstore, Intrinsic.hasDest, Intrinsic.isStore]
  obtain ⟨stored, hsrcs⟩ : ∃ stored, a.srcs = [target, stored] := by
    have hlen := h.length_srcs
    rw [h.srcs_eq, hstore] at hlen
    obtain ⟨stored, htail⟩ := List.length_eq_one_iff.mp (Nat.succ.inj hlen)
    exact ⟨stored, by rw [h.srcs_eq, htail]⟩
  have hlive : f.Live stored := h.live_tail (by simp [hsrcs])
  obtain ⟨shape, hshape⟩ := exists_shape hlive.hasValue
  have hbits : T.narrow → shape.bits = 32 := fun hT => hf.bits hT hlive hshape
  have hwide : T.exact → a.width ≤ shape.width := fun hT => hacc.stored hT hcover 1 stored shape
    (by simp [hstore, Intrinsic.storedSlot?]) (by simp [hsrcs]) hshape
  obtain ⟨written, s₁, g, c, news, hrun, hs₁, he, hwrites⟩ :=
    (h.storeChannels_yields (.refl s.vars) hstore hsrcs h1 hshape hwide hbits).exists hsane hf.tidy
      (stands_before hlinked.placed h.home)
  obtain ⟨done, rest, hb⟩ := List.append_of_mem (hlinked.placed.mem_iff.mpr h.home)
  obtain ⟨g', hh, hsound, htraded, hr⟩ := he.trade_store hf hs₁.vars hb hd
    (fun hT hreach z hz => h.before hT hreach hb z hz) isWide_pieces
  refine ⟨g', { s₁ with stats := s₁.stats.countStore written }, ?_, hs₁.sane, hs₁.vars, hsound,
    htraded, fun hT hT' vars vars' hv hv' => ?_, ?_⟩
  · rw [splitVarStore, StateT.run_bind, buildChannels_run hrun, ok_bind]
    simp only [hh, lift_ok_bind]
    rfl
  · refine he.refines_store hf.tidy h.home (hv.trans (hs₁.vars.trans hv')) hr ?_
    intro io done rest e e₁ e' ha hb hstep htr
    obtain ⟨y, slot, z, out, hslot, hz, hout, rfl⟩ := step?_write h.body hstore hsrcs hstep
    obtain ⟨rfl, o, ho, hfit⟩ := slot_of_derefSlot h (hf.ordered hT') hv ha hb hslot
    refine ⟨out, rfl, hwrites (hbits hT) vars' e' slot z out hv' ⟨o, ?_, hfit⟩ ?_ ?_⟩
    · rw [← ho]
      exact offset?_congr fun q hq => htr.values q (h.live_index hq).hasValue
    · rw [← hz]
      exact htr.values stored hlive.hasValue
    · rw [htr.io, hout]
  · have hstats := hs₁.stats
    simp only [SplitStats.countStore, hstats]
    omega

/-- An access to several channels of a variable that is to be split. -/
def VarLeft (stage : Stage) (modes : Mode) (vars : Variables) (f : Function) (b : BlockId)
    (i : InstrId) : Prop :=
  f.home? i = some b ∧ ∃ a v root x n t, f.body? i = some (.access a) ∧ a.kind.isDerefAccess ∧
    a.srcs[0]? = some v ∧ vars.get? root = some x ∧ f.Chain root x n v t ∧
    a.Splits stage modes x

theorem VarLeft.site (h : f.VarLeft T.stage T.modes vars b i) (hf : f.Sound T vars)
    (hT : T.derefs) :
    ∃ a v root x t n u, Site T vars f i b a v root x t n u ∧ a.Splits T.stage T.modes x := by
  obtain ⟨hi, a, v, root, x, n, u, hbody, hkind, hv, hx, hchain, hsplit⟩ := h
  obtain ⟨v', root', x', m, u', hv', hx', hchain', hlimit⟩ :=
    ((hf.bodies i b _ hi hbody).access a rfl).chain hT hkind
  obtain rfl : v = v' := by simpa [hv] using hv'
  obtain ⟨-, rfl⟩ := hchain.unique hchain'
  obtain rfl : x = x' := by simpa [hx] using hx'
  obtain ⟨t, ht⟩ := Variable.exists_channelType hsplit.2.1
  exact ⟨a, v, root, x, t, n, u,
    ⟨hf, hT, hi, hbody, hkind, hsplit.1, hv, hx, hchain, ht, hlimit hsplit⟩, hsplit⟩

theorem splitsAccess_intersects {kind : Intrinsic} {mode modes : Mode}
    (h : splitsAccess kind mode modes) : mode.intersects modes := by
  simp only [splitsAccess] at h
  split at h
  · simp only [Bool.and_eq_true, beq_iff_eq] at h
    obtain ⟨hm, rfl⟩ := h
    simp [Mode.intersects, Mode.shaderOut, hm]
  · simp only [Bool.or_eq_true, Bool.and_eq_true, beq_iff_eq] at h
    rcases h with ⟨hm, rfl⟩ | ⟨hm, rfl⟩
    · simp [Mode.intersects, Mode.shaderIn, hm]
    · simp [Mode.intersects, Mode.shaderOut, hm]

/-- What becomes of an access through a chain. -/
theorem splitVarInstr_run {stage : Stage} {modes : Mode} {y : Instr} {u : VarType}
    (hy : f.instrs.get? i = some y)
    (hbody : y.body = .access a) (hw : a.width ≠ 1) (hk : a.kind.isDerefAccess)
    (hv : a.srcs[0]? = some target) (hx : s.vars.get? source = some x)
    (hchain : f.Chain source x n target u) :
    (x.canSplit stage ∧ splitsAccess a.kind x.mode modes →
      (splitVarInstr stage modes f i).run s = (if a.kind = .storeDeref then
        f.splitVarStore i a source else f.splitVarLoad i y.dest a source).run s) ∧
    (¬ (x.canSplit stage ∧ splitsAccess a.kind x.mode modes) →
      (splitVarInstr stage modes f i).run s = .ok (f, s)) := by
  obtain ⟨d, hd, hmode, -⟩ := hchain.deref
  have hinstr : f.instr i = .ok y := instr_eq_ok.mpr hy
  have hsrc : a.src 0 = .ok target := by simp [Access.src, hv]
  have hget : s.vars.get source = .ok x := by simp [Variables.get, hx, Checked.inBounds]
  simp only [splitVarInstr, hinstr, hbody, hw, hk, hsrc, hd, hchain.derefRoot, Checked.orElse,
    lift_ok_bind, hmode, decide_false, Bool.not_true, Bool.or_false, Bool.false_eq_true, if_false]
  constructor
  · rintro ⟨hcan, hsplit⟩
    simp only [splitsAccess_intersects hsplit, Bool.not_true, Bool.false_eq_true, if_false]
    rw [StateT.run_bind, StateT.run_get]
    simp only [pure_bind, hget, lift_ok_bind, hcan, hsplit, Bool.not_true, Bool.false_eq_true,
      if_false]
  · intro hnot
    cases x.mode.intersects modes with
    | false => rfl
    | true =>
      simp only [Bool.not_true, Bool.false_eq_true, if_false]
      rw [StateT.run_bind, StateT.run_get]
      simp only [pure_bind, hget, lift_ok_bind]
      cases hcan : x.canSplit stage with
      | false => rfl
      | true =>
        have hsplit : splitsAccess a.kind x.mode modes = false := by simpa [hcan] using hnot
        simp only [hsplit]
        rfl

theorem splitVarInstr_skip {stage : Stage} {modes : Mode} (hi : f.home? i = some b)
    (hchained : ∀ a, f.body? i = some (.access a) → a.kind.isDerefAccess →
      a.Chained stage modes s.vars f) (hleft : ¬ f.VarLeft stage modes s.vars b i) :
    (splitVarInstr stage modes f i).run s = .ok (f, s) := by
  obtain ⟨y, hy, -⟩ := home?_eq_some.mp hi
  have hinstr : f.instr i = .ok y := instr_eq_ok.mpr hy
  have hbody : f.body? i = some y.body := by simp [body?, hy]
  cases hyb : y.body with
  | access a =>
    rw [hyb] at hbody
    by_cases hw : a.width = 1
    · simp [splitVarInstr, hinstr, hyb, hw, lift_ok_bind]
    by_cases hk : a.kind.isDerefAccess
    · obtain ⟨v, root, x, n, t, hv, hx, hchain, -⟩ := hchained a hbody hk
      exact (splitVarInstr_run hy hyb hw hk hv hx hchain).2 fun h =>
        hleft ⟨hi, a, v, root, x, n, t, hbody, hk, hv, hx, hchain, hw, h⟩
    · simp [splitVarInstr, hinstr, hyb, hk, lift_ok_bind]
  | _ => simp [splitVarInstr, hinstr, hyb, lift_ok_bind]

theorem splitVarInstr_ok [FloatOps] (hf : f.Sound T s.vars) (hT : T.derefs) (hsane : s.Sane)
    (hleft : f.VarLeft T.stage T.modes s.vars b i) :
    ∃ g s', (splitVarInstr T.stage T.modes f i).run s = .ok (g, s') ∧ VarStep T s f i s' g := by
  obtain ⟨a, v, root, x, t, n, u, hsite, hsplit⟩ := hleft.site hf hT
  obtain ⟨y, hy, hyb⟩ := Option.map_eq_some_iff.mp hsite.body
  have hdest : f.dest? i = y.dest := by simp [dest?, hy]
  rw [(splitVarInstr_run hy hyb hsite.wide hsite.kind hsite.head hsite.var hsite.chain).1 hsplit.2,
    ← hdest]
  split_ifs with hk
  · exact splitVarStore_ok hsite hsane hk
  · refine splitVarLoad_ok hsite hsane ?_
    have hkind := hsite.kind
    revert hkind hk
    cases a.kind <;> simp [Intrinsic.isDerefAccess, Intrinsic.isStore]

/-- Where accesses through chains are kept as they are, nothing new is left to split. -/
theorem VarLeft.of_kept {stage : Stage} {modes : Mode} {vars' : Variables}
    (h : g.VarLeft stage modes vars' b i) (hf : f.Closed) (hx : vars.Extends vars')
    (hchained : ∀ a, f.body? i = some (.access a) → a.kind.isDerefAccess →
      a.Chained stage modes vars f) {body : Body} {ρ : Nat → ValueId → ValueId}
    (hi : f.home? i = some b) (hbody : f.body? i = some body)
    (hρ : g.body? i = some (body.mapSrcs ρ)) (hfix : ∀ w, f.Live w → f.isPlace w → ρ 0 w = w)
    (hkept : ∀ root x n v t, f.Live v → f.Chain root x n v t → g.Chain root x n v t) :
    f.VarLeft stage modes vars b i := by
  obtain ⟨-, a, v, root, x, n, t, hbody', hkind, hv, hroot, hchain, hsplit⟩ := h
  obtain ⟨a', rfl, rfl⟩ := Body.mapSrcs_eq_access.mp (Option.some.inj (hρ.symm.trans hbody'))
  obtain ⟨v', root', x', m, t', hv', hx', hchain', -⟩ := hchained a' hbody hkind
  have hlive : f.Live v' := hf.live_src hi hbody (List.mem_of_getElem? hv')
  obtain rfl : v' = v := by simpa [hv', hfix v' hlive hchain'.isPlace] using hv
  obtain ⟨-, rfl⟩ := hchain.unique (hkept _ _ _ _ _ hlive hchain')
  obtain rfl : x = x' := by simpa [hx root x' hx'] using hroot.symm
  exact ⟨hi, a', v', root, x, m, t', hbody, hkind, hv', hx', hchain', hsplit⟩

theorem Traded.chain {New : Body → Prop} (h : Traded New f i g) (hf : f.Closed)
    {a : Access} (hbody : f.body? i = some (.access a)) {root : VarId} {v : ValueId}
    (hv : f.Live v) (hchain : f.Chain root x n v t) : g.Chain root x n v t := by
  refine hchain.kept hf hv fun j b d w hj hd hs => ?_
  have hji : j ≠ i := by
    rintro rfl
    simp [hbody] at hd
  obtain ⟨-, -, ρ, hρ, hfix⟩ := h.old j b _ hji hj hd
  exact ⟨h.source w j hs, ρ, hρ, fun z _ hz => hfix 0 z hz⟩

theorem VarStep.left [FloatOps] (h : VarStep T s f i s' g) (hf : f.Sound T s.vars) (hT : T.derefs)
    (hbody : f.body? i = some (.access a)) {d : BlockId} {j : InstrId}
    (hj : g.VarLeft T.stage T.modes s'.vars d j) :
    j ≠ i ∧ f.VarLeft T.stage T.modes s.vars d j := by
  have hleft := hj
  obtain ⟨hjd, a', v, root, x, n, t, hbody', hkind, hv, hroot, hchain, hsplit⟩ := hj
  rcases h.traded.only j d _ hjd hbody' with ⟨hji, hold⟩ | hn
  · obtain ⟨y, hy, -⟩ := home?_eq_some.mp hold
    have hfb : f.body? j = some y.body := by simp [body?, hy]
    obtain ⟨-, -, ρ, hρ, hfix⟩ := h.traded.old j d y.body hji hold hfb
    exact ⟨hji, hleft.of_kept hf.closed h.vars (hf.chained hT hold) hold hfb hρ
      (fun w _ hw => hfix 0 w hw) fun root x n v t hv hc => h.traded.chain hf.closed hbody hv hc⟩
  · have hwide := hsplit.1
    simp [Body.isWide, hwide] at hn

/-- What a split of variables does to a function while it counts and declares. -/
structure VarDone [FloatOps] (T : Terms) (s : Splitting) (f : Function) (s' : Splitting)
    (g : Function) : Prop where
  vars : s.vars.Extends s'.vars
  refines : T.narrow → T.ordered → ∀ vars vars', vars.Extends s.vars → s'.vars.Extends vars' →
    Refines f vars g vars'
  count : s'.stats.loads + s'.stats.stores + g.wideAccesses.length ≤
    s.stats.loads + s.stats.stores + f.wideAccesses.length

theorem VarDone.refl [FloatOps] (T : Terms) (s : Splitting) (f : Function) : VarDone T s f s f :=
  ⟨.refl s.vars, fun _ _ _ _ hv hv' => .extends f (hv.trans hv'), le_refl _⟩

theorem VarStep.done [FloatOps] (h : VarStep T s f i s' g) (hf : f.Sound T s.vars)
    (hleft : f.VarLeft T.stage T.modes s.vars b i) : VarDone T s f s' g := by
  obtain ⟨hi, a, v, root, x, n, t, hbody, -, -, -, -, hsplit⟩ := hleft
  have hwide := hsplit.1
  have hlt := h.traded.wideAccesses_lt hf.tidy.linked.placed h.sound.tidy.linked.placed
    (fun body hn => hn) hi hbody (by simpa [Body.isWide] using hwide)
  have hcount := h.count
  exact ⟨h.vars, h.refines, by omega⟩

theorem VarLeft.of_extends {vars' : Variables} (h : f.VarLeft T.stage T.modes vars' b i)
    (hf : f.Sound T vars) (hT : T.derefs) (hx : vars.Extends vars') :
    f.VarLeft T.stage T.modes vars b i := by
  obtain ⟨y, hy, -⟩ := home?_eq_some.mp h.1
  have hbody : f.body? i = some y.body := by simp [body?, hy]
  exact h.of_kept hf.closed hx (hf.chained hT h.1) (ρ := fun _ v => v) h.1 hbody
    (by rw [Body.mapSrcs_id, hbody]) (fun _ _ _ => rfl) fun _ _ _ _ _ _ hc => hc

theorem varWalks [FloatOps] (T : Terms) (hT : T.derefs) :
    Walks (splitVarInstr T.stage T.modes) (fun s f => s.Sane ∧ f.Sound T s.vars) (VarDone T)
      (fun s f => f.VarLeft T.stage T.modes s.vars) := by
  refine ⟨fun s f _ => .refl T s f, ?_, fun _ f hf => hf.2.tidy.linked.placed,
    fun _ f b j hj => hj.1, ?_⟩
  · intro s f s' g s'' h hfg hgh
    refine ⟨hfg.vars.trans hgh.vars, fun hT hT' vars vars' hv hv' => ?_, hgh.count.trans hfg.count⟩
    exact (hfg.refines hT hT' vars s'.vars hv (.refl _)).trans
      (hgh.refines hT hT' s'.vars vars' (.refl _) hv')
  · rintro s f i b ⟨hsane, hf⟩ hi
    by_cases hleft : f.VarLeft T.stage T.modes s.vars b i
    · obtain ⟨g, s', hg, hstep⟩ := splitVarInstr_ok hf hT hsane hleft
      have hbody := hleft.2
      obtain ⟨a, -, -, -, -, -, hbody, -⟩ := hbody
      refine ⟨g, s', hg, ⟨hstep.sane, hstep.sound⟩, hstep.done hf hleft, fun j d hji hj => ?_,
        fun d j hj => hstep.left hf hT hbody hj⟩
      obtain ⟨y, hy, -⟩ := home?_eq_some.mp hj
      exact (hstep.traded.old j d y.body hji hj (by simp [body?, hy])).1
    · refine ⟨f, s, splitVarInstr_skip hi (hf.chained hT hi) hleft, ⟨hsane, hf⟩, .refl T s f,
        fun j d _ hj => hj, fun d j hj => ⟨?_, hj⟩⟩
      rintro rfl
      obtain rfl : b = d := by simpa [hi] using hj.1
      exact hleft hj

theorem splitVars_ok [FloatOps] (hf : f.Sound T s.vars) (hT : T.derefs) (hsane : s.Sane) :
    ∃ g s', (f.splitVars T.stage T.modes).run s = .ok (g, s') ∧ (s'.Sane ∧ g.Sound T s'.vars) ∧
      VarDone T s f s' g ∧ ∀ b i, ¬ g.VarLeft T.stage T.modes s'.vars b i :=
  (varWalks T hT).layout ⟨hsane, hf⟩

end Function

end ShaderSSA
