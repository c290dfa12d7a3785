import ShaderSSA.Proofs.ChannelVars

/-! The instructions an access to several channels of a variable is split into: for each channel
the chain to its variable and the access through it. -/

namespace ShaderSSA

/-- The access `i` goes through a chain of `n` derefs to several channels of `source`, all of them
within its slot. -/
structure Site (T : Terms) (vars : Variables) (f : Function) (i : InstrId) (b : BlockId)
    (a : Access) (target : ValueId) (source : VarId) (x : Variable) (t : VarType) (n : Nat)
    (u : VarType) : Prop where
  sound : f.Sound T vars
  derefs : T.derefs
  home : f.home? i = some b
  body : f.body? i = some (.access a)
  kind : a.kind.isDerefAccess
  wide : a.width ≠ 1
  head : a.srcs[0]? = some target
  var : vars.get? source = some x
  chain : f.Chain source x n target u
  channel : x.type.channelType? = some t
  limit : x.channel + a.width ≤ 4

namespace Site

/-- What may be put in place of the access: it reads the indices of the chain and what the access
reads besides the place. -/
def pieces (T : Terms) (f : Function) (a : Access) (target : ValueId) (n : Nat) : VarTrait where
  given vars := T.emitted vars f (fun body => body.isWide = false)
    fun z => z ∈ f.indices n target ∨ z ∈ a.srcs.tail
  mono hx _ _ _ h := ⟨h.1.extends hx, h.2⟩

variable {T : Terms} {vars vars' : Variables} {f g k : Function} {i : InstrId} {b : BlockId}
  {a : Access} {target : ValueId} {source : VarId} {x : Variable} {t u : VarType} {n : Nat}

theorem meets_var (id : VarId) (y : Variable) :
    ((pieces T f a target n).given vars).holds g (.deref ⟨.var id, y.mode, y.type⟩)
      (some ⟨1, 32⟩) := by
  refine ⟨⟨?_, by simp, fun _ => trivial, by simp [Body.srcs]⟩, rfl, by simp [Body.srcs]⟩
  rintro _ _ ⟨rfl⟩
  rfl

variable (h : Site T vars f i b a target source x t n u)

include h

theorem live_target : f.Live target :=
  h.sound.closed.live_src h.home h.body (List.mem_of_getElem? h.head)

theorem live_index {z : ValueId} (hz : z ∈ f.indices n target) : f.Live z :=
  h.chain.live_indices h.sound.closed h.live_target z hz

theorem live_tail {z : ValueId} (hz : z ∈ a.srcs.tail) : f.Live z :=
  h.sound.closed.live_src h.home h.body (List.mem_of_mem_tail hz)

theorem notPlace (hT : T.apart) (hg : f.Grows i g) {z : ValueId}
    (hz : z ∈ f.indices n target ∨ z ∈ a.srcs.tail) : g.isPlace z = false := by
  obtain ⟨_, -, hg⟩ := hg
  have hlive : f.Live z := hz.elim h.live_index h.live_tail
  rw [hg.isPlace h.sound.tidy.linked.defined hlive.hasValue]
  rcases hz with hz | hz
  · exact h.sound.notPlace_index hT h.chain h.live_target z hz
  · obtain ⟨slot, hslot⟩ := List.getElem?_of_mem hz
    rw [List.getElem?_tail] at hslot
    exact (h.sound.bodies i b _ h.home h.body).notPlace hT (slot + 1) hslot
      (by simp [Body.isPlaceSlot])

theorem before (hT : T.ordered) (hr : f.blocks.Reachable b) {done rest : List InstrId}
    (hb : f.blockInstrs b = done ++ i :: rest) (z : ValueId)
    (hz : z ∈ f.indices n target ∨ z ∈ a.srcs.tail) :
    ∃ d, f.source? z = some d ∧ f.Before d b done := by
  have hdom := h.sound.ordered hT
  have hread : ∀ v ∈ a.srcs, ∃ d, f.source? v = some d ∧ f.Before d b done := by
    intro v hv
    obtain ⟨s, hs⟩ := Function.reads?_of_mem h.home h.body (v := v) hv
    exact hdom.operand b done i rest s v hr hb hs
  rcases hz with hz | hz
  · obtain ⟨d, hd, hbefore⟩ := hread target (List.mem_of_getElem? h.head)
    exact h.chain.before_indices h.sound.tidy.linked.placed hdom hr hb hd hbefore z hz
  · exact hread z (List.mem_of_mem_tail hz)

end Site

namespace Build

variable {P : Trait} {f : Function} {i : InstrId} {v : ValueId}

theorem derefOf_obeys {β : Type} {lax : Prop} {E : Conduct Builder.func} {d : Deref} {j : InstrId}
    {otherwise : Breach} {k : Deref → Build β} {R : β → List InstrId → Function → Prop}
    (hs : f.source? v = some j) (hb : f.body? j = some (.deref d)) (h : Obeys lax E (k d) f R) :
    Obeys lax E (derefOf v otherwise >>= k) f R := by
  obtain ⟨y, hy, rfl⟩ := Option.map_eq_some_iff.mp hs
  obtain ⟨z, hz, hzb⟩ := Option.map_eq_some_iff.mp hb
  have hdef : f.definition v = .ok z := by
    simp only [Function.definition, Function.value_eq_ok.mpr hy, ok_bind,
      Function.instr_eq_ok.mpr hz]
  unfold derefOf
  rw [bind_assoc]
  refine .func ?_
  rw [bind_assoc]
  exact .ok hdef (.ok (Checked.orElse_eq_ok.mpr (by simp [hzb, Body.deref?])) h)

theorem derefElement_yields [FloatOps] {root : VarId} {x : Variable} {m : Nat} {type : VarType}
    {length : Nat} {index : ValueId} (hchain : f.Chain root x m v (.array type length))
    (hv : f.Live v) (hindex : f.Live index)
    (hP : P.holds f (.deref ⟨.element v index, x.mode, type⟩) (some ⟨1, 32⟩)) :
    (derefElement v index).Yields P f i
      (f.Defines (.deref ⟨.element v index, x.mode, type⟩) ⟨1, 32⟩) := by
  obtain ⟨j, d, hsource, hbody, hmode, htype⟩ := hchain.source
  have hsrc : ∀ z ∈ (Body.deref ⟨.element v index, x.mode, type⟩).srcs, f.Live z := by
    intro z hz
    rcases List.mem_pair.mp hz with rfl | rfl
    · exact hv
    · exact hindex
  refine derefOf_obeys hsource hbody ?_
  simp only [htype, hmode]
  exact insertValue_yields hsrc (by simp [Body.srcs]) (by simp) hP

end Build

namespace Site

variable {T : Terms} {vars vars' : Variables} {f g k : Function} {i : InstrId} {b : BlockId}
  {a : Access} {target : ValueId} {source : VarId} {x : Variable} {t u : VarType} {n : Nat}
  (h : Site T vars f i b a target source x t n u)

include h

theorem meets_element (hg : f.Grows i g) {parent index : ValueId} {mode : Mode} {type : VarType}
    (hparent : f.hasValue parent = false) (hindex : index ∈ f.indices n target) :
    ((pieces T f a target n).given vars').holds g (.deref ⟨.element parent index, mode, type⟩)
      (some ⟨1, 32⟩) := by
  refine ⟨⟨?_, by simp, fun _ => trivial, fun hT slot z hz hp => ?_⟩, rfl, fun z hz hk => ?_⟩
  · rintro _ _ ⟨rfl⟩
    rfl
  · cases slot with
    | zero => rfl
    | succ slot =>
      cases slot with
      | zero =>
        obtain rfl : index = z := by simpa [Body.srcs] using hz
        simp [h.notPlace hT hg (.inl hindex)] at hp
      | succ slot => simp [Body.srcs] at hz
  · rcases List.mem_pair.mp hz with rfl | rfl
    · simp [hparent] at hk
    · exact .inl hindex

/-- The array steps repeated on top of another root: the chain has the types of one channel and
reaches the same offset. -/
theorem repeatSteps_yields [FloatOps] (hg : f.Grows i g) {root : VarId} {y : Variable}
    (htype : x.type.channelType? = some y.type) {r : ValueId} (hr : g.Chain root y 1 r y.type)
    (hlive : g.Live r) (hfresh : f.hasValue r = false) {m : Nat} {v : ValueId} {w : VarType}
    (hchain : f.Chain source x m v w) (hindex : ∀ z ∈ f.indices m v, z ∈ f.indices n target)
    {steps : Nat} (hsteps : m ≤ steps) :
    (ChannelBuild.repeatSteps r steps v).Yields ((pieces T f a target n).given vars') g i
      fun p news k => k.Live p ∧ f.hasValue p = false ∧
        (∃ m' w', w.channelType? = some w' ∧ k.Chain root y m' p w') ∧
        ∀ vars e o, e.places r = some ⟨root, 0⟩ → f.offset? e m v = some o →
          g.Points vars e news k p ⟨root, o⟩ := by
  obtain ⟨_, hgrown⟩ := hg.grown
  have hbody : ∀ {j : InstrId} {body : Body}, f.body? j = some body → g.body? j = some body := by
    intro j body hb
    obtain ⟨z, hz, -⟩ := Option.map_eq_some_iff.mp hb
    rw [hgrown.body hz, hb]
  induction hchain generalizing steps with
  | @var v j hsource hb =>
    obtain ⟨steps, rfl⟩ : ∃ l, steps = l + 1 := ⟨steps - 1, by omega⟩
    refine Build.derefOf_obeys (hgrown.source v j hsource) (hbody hb) ?_
    refine .pure ⟨hlive, hfresh, ⟨1, y.type, htype, hr⟩, fun vars e o hplace ho => ?_⟩
    obtain rfl : 0 = o := by simpa [Function.offset?, hsource, hb] using ho
    exact ⟨e, rfl, .refl _ e, rfl, hplace⟩
  | @element m v parent index j type length hsource hb hp ih =>
    obtain ⟨steps, rfl⟩ : ∃ l, steps = l + 1 := ⟨steps - 1, by omega⟩
    have hmem : index ∈ f.indices n target ∧
        ∀ z ∈ f.indices m parent, z ∈ f.indices n target := by
      simpa [Function.indices, hsource, hb] using hindex
    refine Build.derefOf_obeys (hgrown.source v j hsource) (hbody hb) ?_
    refine (ih hmem.2 (by omega)).bind ?_
    rintro q news k he ⟨hqlive, hqfresh, ⟨m', w', hw', hqchain⟩, hqplace⟩
    obtain ⟨type', htype', rfl⟩ := VarType.channelType?_array hw'
    have hindexlive : g.Live index := hgrown.live (h.live_index hmem.1)
    refine (Build.derefElement_yields hqchain hqlive (he.grown.live hindexlive)
      (h.meets_element (hg.trans he.grows) hqfresh hmem.1)).imp fun p more l he' hd => ?_
    have hqchain' := (hqchain.grown he'.grown).1
    obtain ⟨d, hdsource, hdbody⟩ := hd.body
    refine ⟨hd.live, ?_, ⟨m' + 1, type', htype', .element hdsource hdbody hqchain'⟩, ?_⟩
    · exact hgrown.absent (he.grown.absent hd.fresh)
    · intro vars e o hplace ho
      simp only [Function.offset?, hsource, hb, Option.bind_some, Option.bind_eq_bind,
        Option.bind_eq_some_iff] at ho
      obtain ⟨o₁, ho₁, stride, hstride, z, hz, step, hstep, ho⟩ := ho
      obtain ⟨e₁, he₁, ha₁, hio₁, hplace₁⟩ := hqplace vars e o₁ hplace ho₁
      refine he.points_trans he' he₁ ha₁ hio₁ (hd.points ?_)
      have hz₁ : e₁.values index = some z := by rw [(ha₁ index hindexlive.hasValue).1, hz]
      simp [Env.effect, Env.derefPlace, hplace₁, VarType.slotCount?_channelType htype', hstride,
        hz₁, hstep, ho]

variable {s : Splitting} {channel : Nat}

/-- The chain to a channel variable, which ends where the access goes. -/
theorem channelDeref_yields [FloatOps] (hv : vars.Extends s.vars) (hg : f.Grows i g)
    (hc : channel < 4) :
    (ChannelBuild.channelDeref source channel target).Yields (pieces T f a target n) s g i
      fun p s' news k => k.Live p ∧ f.hasValue p = false ∧
        ∃ root, s'.vars.get? root = some (x.onChannel channel t) ∧
          (∃ m w, k.Chain root (x.onChannel channel t) m p w) ∧
          ∀ vars e o, f.offset? e n target = some o → g.Points vars e news k p ⟨root, o⟩ := by
  refine (ChannelBuild.channelVar_yields (hv _ x h.var) h.channel hc).bind ?_
  rintro id _ ⟨s₁, k⟩ - ⟨rfl, rfl, hid⟩
  have hget : s₁.vars.get id = .ok (x.onChannel channel t) := by
    simp [Variables.get, hid, Checked.inBounds]
  refine .splitting (.ok hget ?_)
  refine (ChannelBuild.Yields.lift (Build.insertValue_yields (by simp [Body.srcs])
    (by simp [Body.srcs]) (by simp) (meets_var id _))).bind ?_
  rintro r news ⟨s₂, l⟩ ⟨-, he⟩ ⟨rfl, hd⟩
  obtain ⟨j, hsource, hbody⟩ := hd.body
  have hgl : f.Grows i l := hg.trans he.grows
  obtain ⟨_, hgrown⟩ := hg.grown
  obtain ⟨_, hgrown'⟩ := hgl.grown
  have hlength : n ≤ l.values.size + 1 := by
    have := (h.chain.grown hgrown').1.length_le
    omega
  refine .liftFunc ?_
  refine (ChannelBuild.Yields.lift (h.repeatSteps_yields hgl h.channel (.var hsource hbody) hd.live
    (hgrown.absent hd.fresh) h.chain (fun _ hz => hz) hlength)).imp ?_
  rintro p more ⟨s₃, l'⟩ ⟨-, he'⟩ ⟨rfl, hlive, hfresh, ⟨m, w, -, hchain⟩, hplace⟩
  refine ⟨hlive, hfresh, id, hid, ⟨m, w, hchain⟩, fun vars e o ho => ?_⟩
  obtain ⟨e₁, he₁, ha₁, hio₁, hr⟩ : k.Points vars e news l r ⟨id, 0⟩ := hd.points rfl
  have ho₁ : f.offset? e₁ n target = some o := by
    rw [← ho]
    exact Function.offset?_congr fun z hz =>
      (ha₁ z (hgrown.hasValue (h.live_index hz).hasValue)).1
  exact he.points_trans he' he₁ ha₁ hio₁ (hplace vars e₁ o hr ho₁)

omit h in
/-- The read of one channel. -/
def channelRead (a : Access) (p : ValueId) : Body :=
  .access (.ofSources a.kind 1 (p :: a.srcs.tail))

omit h in
/-- The slot that the access goes to. -/
def Slot (f : Function) (x : Variable) (n : Nat) (target : ValueId) (e : Env) (slot : Nat) :
    Prop :=
  ∃ o, f.offset? e n target = some o ∧ Checked.fit 32 (x.location.toNat + o) = .ok slot

theorem slot_congr {e e₁ : Env} {slot : Nat} (hg : f.Grows i g)
    (ha : e.Agrees (fun z => g.hasValue z) e₁) (hslot : Slot f x n target e slot) :
    Slot f x n target e₁ slot := by
  obtain ⟨_, -, hg⟩ := hg
  obtain ⟨o, ho, hfit⟩ := hslot
  refine ⟨o, ?_, hfit⟩
  rw [← ho]
  exact Function.offset?_congr fun z hz => (ha z (hg.hasValue (h.live_index hz).hasValue)).1

theorem length_srcs : a.srcs.length = a.kind.arity :=
  ((h.sound.bodies i b _ h.home h.body).access a rfl).arity

theorem srcs_eq : a.srcs = target :: a.srcs.tail := by
  have hhead := h.head
  cases hs : a.srcs with
  | nil => simp [hs] at hhead
  | cons v l => simpa [hs] using hhead

theorem extraSources_eq (hload : a.kind.isStore = false) :
    ChannelBuild.extraSources a = .ok a.srcs.tail := by
  have hlen := h.length_srcs
  have hsrcs := h.srcs_eq
  have hkind := h.kind
  cases htail : a.srcs.tail with
  | nil =>
    rw [hsrcs, htail] at hlen
    cases hk : a.kind <;> simp [hk, Intrinsic.arity, Intrinsic.isStore] at hlen hload
    · simp [hk, Intrinsic.isDerefAccess] at hkind
    · simp [hk, Intrinsic.isDerefAccess] at hkind
    · simp [ChannelBuild.extraSources, hk]
    · simp [ChannelBuild.extraSources, hk]
  | cons v l =>
    rw [htail] at hsrcs
    rw [hsrcs] at hlen
    cases hk : a.kind <;> simp [hk, Intrinsic.arity, Intrinsic.isStore] at hlen hload
    · simp [ChannelBuild.extraSources, hk, Access.src, hsrcs, hlen, Checked.inBounds]
    · simp [ChannelBuild.extraSources, hk, Access.src, hsrcs, hlen, Checked.inBounds]

theorem meets_one {srcs : List ValueId} {mask : Nat} {dest : Option Shape}
    {p : ValueId} {root : VarId} {y : Variable} {m : Nat} {w : VarType}
    (hlen : srcs.length = a.kind.arity) (hhead : srcs[0]? = some p)
    (hroot : vars'.get? root = some y) (hchain : g.Chain root y m p w)
    (hresult : dest.isSome ↔ a.kind.hasDest) (hwidth : ∀ s, dest = some s → s.width = 1)
    (hbits : T.narrow → ∀ s, dest = some s → s.bits = 32)
    (hstored : ∀ (slot : Nat) v s, a.kind.storedSlot? = some slot → srcs[slot]? = some v →
      g.shape? v = some s → 1 ≤ s.width)
    (hmask : a.kind.hasWriteMask → Checked.maskFrom mask 1 = .ok 0)
    (hplace : T.apart → ∀ (slot : Nat) v, srcs[slot + 1]? = some v → g.isPlace v = false) :
    (Body.access ⟨a.kind, 1, srcs, 0, 0, mask⟩).Meets T vars' g dest := by
  refine ⟨hbits, ?_, fun _ => ⟨hlen, hmask⟩, fun hT slot v hv hp => ?_⟩
  · rintro _ ⟨rfl⟩
    refine ⟨hlen, fun _ => hresult, fun _ => ⟨le_refl 1, by simp⟩, fun _ _ => by simp,
      fun _ _ => ⟨p, root, y, m, w, hhead, hroot, hchain, fun hs => absurd rfl hs.1⟩,
      fun _ _ => hwidth, fun _ _ => hstored⟩
  · cases slot with
    | zero => simp [Body.isPlaceSlot, h.kind]
    | succ slot => simp [hplace hT slot v hv] at hp

theorem meets_read (hg : f.Grows i g) (hload : a.kind.isStore = false) {p : ValueId}
    {root : VarId} {y : Variable} {m bits : Nat} {w : VarType} (hfresh : f.hasValue p = false)
    (hroot : vars'.get? root = some y) (hchain : g.Chain root y m p w)
    (hbits : T.narrow → bits = 32) :
    ((pieces T f a target n).given vars').holds g (channelRead a p) (some ⟨1, bits⟩) := by
  have hlen := h.length_srcs
  rw [h.srcs_eq] at hlen
  refine ⟨h.meets_one (by simpa using hlen) (by simp) hroot hchain ?_ ?_ ?_ ?_ ?_ ?_, rfl,
    fun z hz hk => ?_⟩
  · simp [Intrinsic.hasDest, hload]
  · rintro s ⟨rfl⟩
    rfl
  · rintro hT s ⟨rfl⟩
    exact hbits hT
  · intro slot v s hslot
    cases hk : a.kind <;> simp [hk, Intrinsic.storedSlot?, Intrinsic.isStore] at hslot hload
  · simp [Intrinsic.hasWriteMask, hload]
  · intro hT slot v hv
    exact h.notPlace hT hg (.inr (List.mem_of_getElem? (by simpa using hv)))
  · rcases List.mem_cons.mp hz with rfl | hz
    · simp [hfresh] at hk
    · exact .inr hz

omit h in
theorem effect_read [FloatOps] {e : Env} {p : ValueId} {root : VarId} {o slot channel : Nat}
    (shape : Option Shape) (hkind : a.kind.isDerefAccess) (hload : a.kind.isStore = false)
    (hp : e.places p = some ⟨root, o⟩) (hroot : vars.get? root = some (x.onChannel channel t))
    (hslot : Checked.fit 32 (x.location.toNat + o) = .ok slot) (hc : channel < 256) :
    e.effect vars shape (channelRead a p) =
      some (.value (.ofList [(Machine.tableOf e.io x.mode).read ⟨slot, channel⟩])) := by
  have hload' : Env.loaded (Machine.tableOf e.io x.mode) slot channel 1 = _ :=
    Env.loaded_eq _ slot (by omega) hc
  have hplace : e.derefSlot vars p = some (x.onChannel channel t, slot) := by
    simp [Env.derefSlot, hp, hroot, Variable.onChannel, hslot, toOption_ok]
  cases hk : a.kind <;> simp [hk, Intrinsic.isDerefAccess, Intrinsic.isStore] at hkind hload <;>
    simpa [channelRead, Access.ofSources, Env.effect, Env.access, hk, hplace, Variable.onChannel,
      List.range_succ] using hload'

theorem loadChannel_yields [FloatOps] (hv : vars.Extends s.vars) (hg : f.Grows i g)
    (hload : a.kind.isStore = false) {bits j : Nat} (hbits : T.narrow → bits = 32)
    (hj : j < a.width) :
    (ChannelBuild.loadChannel a source x.channel bits j).Yields (pieces T f a target n) s g i
      fun v s' news k => g.hasValue v = false ∧ k.Live v ∧ k.shape? v = some ⟨1, bits⟩ ∧
        k.isPlace v = false ∧ ∀ vars' e slot, s'.vars.Extends vars' → Slot f x n target e slot →
          g.Gives vars' e news k v
            (.ofList [(Machine.tableOf e.io x.mode).read ⟨slot, x.channel + j⟩]) := by
  have hlimit := h.limit
  have hc : x.channel + j < 256 := by omega
  have hsrc : a.src 0 = .ok target := by simp [Access.src, h.head, Checked.inBounds]
  refine .ok (Env.fit_component hc) (.ok hsrc ?_)
  refine (h.channelDeref_yields hv hg (by omega)).bind ?_
  rintro p news ⟨s₁, k⟩ ⟨hs₁, he⟩ ⟨hplive, hpfresh, root, hroot, ⟨m, w, hchain⟩, hpoints⟩
  refine .ok (h.extraSources_eq hload) ?_
  have hgk := hg.trans he.grows
  obtain ⟨_, hgrown⟩ := hgk.grown
  have hlive : ∀ z ∈ (channelRead a p).srcs, k.Live z := by
    intro z hz
    rcases List.mem_cons.mp hz with rfl | hz
    · exact hplive
    · exact hgrown.live (h.live_tail hz)
  have hlen : (channelRead a p).srcs.length ≤ 256 := by
    have harity := h.length_srcs
    have hle := a.kind.arity_le
    simp only [channelRead, Access.ofSources, Body.srcs, List.length_cons, List.length_tail]
    omega
  refine (ChannelBuild.Yields.lift (Build.insertValue_yields hlive hlen (by simp)
    (h.meets_read hgk hload hpfresh hroot hchain hbits))).imp ?_
  rintro v more ⟨s₂, l⟩ ⟨-, he₂⟩ ⟨rfl, hd⟩
  refine ⟨he.grown.absent hd.fresh, hd.live, hd.shape, hd.place, fun vars' e slot hx hslot => ?_⟩
  obtain ⟨o, ho, hfit⟩ := hslot
  obtain ⟨e₁, he₁, ha₁, hio₁, hp₁⟩ := hpoints vars' e o ho
  have heff := effect_read (some ⟨1, bits⟩) h.kind hload hp₁ (hx _ _ hroot) hfit hc
  rw [hio₁] at heff
  exact he.gives_trans he₂ he₁ ha₁ hio₁ hd.fresh (hd.gives heff)

theorem channelLoads_yields [FloatOps] (hv : vars.Extends s.vars) (hg : f.Grows i g)
    (hload : a.kind.isStore = false) {bits : Nat} (hbits : T.narrow → bits = 32) {l : List Nat}
    (hl : ∀ j ∈ l, j < a.width) :
    ChannelBuild.Yields (pieces T f a target n)
      (l.mapM (ChannelBuild.loadChannel a source x.channel bits)) s g i
      fun vs s' news k => vs.length = l.length ∧
        (∀ v ∈ vs, g.hasValue v = false ∧ k.Live v ∧ k.shape? v = some ⟨1, bits⟩ ∧
          k.isPlace v = false) ∧
        ∀ vars' e slot, s'.vars.Extends vars' → Slot f x n target e slot →
          ∃ e₁, k.exec? vars' news e = some e₁ ∧ e.Agrees (fun w => g.hasValue w) e₁ ∧
            e₁.io = e.io ∧ ∀ (j : Nat) v d, vs[j]? = some v → l[j]? = some d → e₁.values v =
              some (.ofList [(Machine.tableOf e.io x.mode).read ⟨slot, x.channel + d⟩]) := by
  induction l generalizing s g with
  | nil =>
    exact .pure ⟨rfl, by simp, fun vars' e slot _ _ => ⟨e, rfl, .refl _ e, rfl, by simp⟩⟩
  | cons d l ih =>
    rw [List.mapM_cons]
    refine (h.loadChannel_yields hv hg hload hbits (hl d List.mem_cons_self)).bind ?_
    rintro v news ⟨s₁, k⟩ ⟨hs₁, he⟩ ⟨hfresh, hlive, hshape, hplace, hgives⟩
    refine (ih (hv.trans hs₁.vars) (hg.trans he.grows)
      fun j hj => hl j (List.mem_cons_of_mem d hj)).bind ?_
    rintro vs more ⟨s₂, k₂⟩ ⟨hs₂, he₂⟩ ⟨hlen, hvs, hexec⟩
    refine .pure ⟨by simp [hlen], ?_, ?_⟩
    · intro w hw
      rcases List.mem_cons.mp hw with rfl | hw
      · refine ⟨hfresh, he₂.grown.live hlive, he₂.grown.shape _ _ hshape, ?_⟩
        rw [he₂.grown.isPlace he.tidy.linked.defined hlive.hasValue, hplace]
      · obtain ⟨hfresh', hrest⟩ := hvs w hw
        exact ⟨he.grown.absent hfresh', hrest⟩
    · intro vars' e slot hx hslot
      obtain ⟨e₁, he₁, ha₁, hio₁, hval, -⟩ := hgives vars' e slot (hs₂.vars.trans hx) hslot
      obtain ⟨e₂, he₂', ha₂, hio₂, hvals⟩ :=
        hexec vars' e₁ slot hx (h.slot_congr hg ha₁ hslot)
      have he' := he.mono ((pieces T f a target n).mono hs₂.vars)
      refine ⟨e₂, ?_, he.agrees_trans ha₁ ha₂, hio₂.trans hio₁, ?_⟩
      · rw [List.append_nil, he'.exec_append he₂ he₁, he₂']
      · intro j w d' hw hd'
        cases j with
        | zero =>
          obtain rfl : v = w := by simpa using hw
          obtain rfl : d = d' := by simpa using hd'
          rw [(ha₂ v hlive.hasValue).1, hval]
        | succ j => rw [hvals j w d' (by simpa using hw) (by simpa using hd'), hio₁]

theorem loadChannels_yields [FloatOps] (hv : vars.Extends s.vars) (hload : a.kind.isStore = false)
    (h2 : 2 ≤ a.width) {bits : Nat} (hbits : T.narrow → bits = 32) :
    (ChannelBuild.loadChannels a source bits).Yields (pieces T f a target n) s f i
      fun v s' news k => f.hasValue v = false ∧ k.Live v ∧ k.shape? v = some ⟨a.width, bits⟩ ∧
        k.isPlace v = false ∧ (bits = 32 → ∀ vars' e slot, s'.vars.Extends vars' →
          Slot f x n target e slot → f.Gives vars' e news k v
            (.ofList ((List.range a.width).map fun d =>
              (Machine.tableOf e.io x.mode).read ⟨slot, x.channel + d⟩))) := by
  have hget : s.vars.get source = .ok x := by simp [Variables.get, hv _ x h.var, Checked.inBounds]
  refine .splitting (.ok hget ?_)
  refine (h.channelLoads_yields hv (.refl f i) hload hbits fun j hj => List.mem_range.mp hj).bind ?_
  rintro vs news ⟨s₁, k⟩ ⟨hs₁, he⟩ ⟨hlen, hvs, hexec⟩
  rw [List.length_range] at hlen
  have hlimit := h.limit
  have hpiece : ∀ op, AluOp.construct? vs.length = some op →
      ((pieces T f a target n).given s₁.vars).holds k (.alu ⟨op, vs.map (.channel · 0)⟩)
        (some ⟨vs.length, bits⟩) := by
    intro op hop
    refine ⟨.vec hop (fun v hv => (hvs v hv).2.2.1) hbits fun _ v hv => (hvs v hv).2.2.2, rfl,
      fun z hz hk => ?_⟩
    have hz' : z ∈ vs := by simpa [Body.srcs, Operand.channel, Function.comp_def] using hz
    simp [(hvs z hz').1] at hk
  refine (ChannelBuild.Yields.lift (Build.vec_yields (by omega) (by omega)
    (fun v hv => (hvs v hv).2.1) (fun v hv => ⟨_, (hvs v hv).2.2.1, rfl⟩) hpiece)).imp ?_
  rintro v more ⟨s₂, l⟩ ⟨-, he₂⟩ ⟨rfl, hfresh, hlive, hshape, hplace, hgives⟩
  refine ⟨he.grown.absent hfresh, hlive, hlen ▸ hshape, hplace,
    fun h32 vars' e slot hx hslot => ?_⟩
  obtain ⟨e₁, he₁, ha₁, hio₁, hvals⟩ := hexec vars' e slot hx hslot
  refine he.gives_trans he₂ he₁ ha₁ hio₁ hfresh ?_
  have hlanes := hgives h32 vars' e₁ ((List.range a.width).map fun d =>
      .ofList [(Machine.tableOf e.io x.mode).read ⟨slot, x.channel + d⟩])
    (by simp [hlen]) fun j w y hw hy => by
      rw [List.getElem?_map, Option.map_eq_some_iff] at hy
      obtain ⟨d, hd, rfl⟩ := hy
      exact hvals j w d hw hd
  have hfirst : ∀ y : UInt32, (Lanes.ofList [y]).first = y := fun y => rfl
  simpa only [List.map_map, Function.comp_def, hfirst] using hlanes

omit h in
/-- The write of one channel from a scalar. -/
def channelWrite (p lane : ValueId) : Body := .access ⟨.storeDeref, 1, [p, lane], 0, 0, 1⟩

variable {stored : ValueId}

theorem meets_write (hg : f.Grows i g) (hstore : a.kind = .storeDeref)
    (hsrcs : a.srcs = [target, stored]) {p lane : ValueId} {root : VarId} {y : Variable}
    {m bits : Nat} {w : VarType} (hfresh : f.hasValue p = false)
    (hroot : vars'.get? root = some y) (hchain : g.Chain root y m p w)
    (hshape : g.shape? lane = some ⟨1, bits⟩) (hlane : f.Taken g stored lane) :
    ((pieces T f a target n).given vars').holds g (channelWrite p lane) none := by
  have hwrite : channelWrite p lane = .access ⟨a.kind, 1, [p, lane], 0, 0, 1⟩ := by
    rw [hstore]
    rfl
  have htail : stored ∈ a.srcs.tail := by simp [hsrcs]
  refine ⟨hwrite ▸ h.meets_one (by simp [hstore, Intrinsic.arity]) rfl hroot hchain ?_ (by simp)
    (by simp) ?_ (fun _ => maskFrom_one) ?_, rfl, fun z hz hk => ?_⟩
  · simp [hstore, Intrinsic.hasDest, Intrinsic.isStore]
  · intro slot v s hslot hv hs
    obtain rfl : 1 = slot := by simpa [hstore, Intrinsic.storedSlot?] using hslot
    obtain rfl : lane = v := by simpa using hv
    obtain rfl : ⟨1, bits⟩ = s := by simpa [hshape] using hs
    exact le_refl 1
  · intro hT slot v hv
    obtain rfl : lane = v := by
      cases slot with
      | zero => simpa using hv
      | succ slot => simp at hv
    rcases hlane with rfl | ⟨-, hplace⟩
    · exact h.notPlace hT hg (.inr htail)
    · exact hplace
  · rcases List.mem_pair.mp hz with rfl | rfl
    · simp [hfresh] at hk
    · rcases hlane with rfl | ⟨hnew, -⟩
      · exact .inr htail
      · simp [hnew] at hk

theorem meets_lanes (hg : f.Grows i g) (hsrcs : a.srcs = [target, stored]) {o : Operand}
    {v : ValueId} {shape : Shape} {d : Nat} (ho : o.value = v) (hshape : g.shape? v = some shape)
    (htaken : f.Taken g stored v) (hbits : T.narrow → shape.bits = 32) (hd : d ≤ 4)
    (hlanes : T.exact → ∀ j ∈ o.swizzle.toList.take d, j < shape.width) :
    ((pieces T f a target n).given vars').holds g (.alu ⟨.mov, [o]⟩) (some ⟨d, shape.bits⟩) := by
  subst ho
  have htail : stored ∈ a.srcs.tail := by simp [hsrcs]
  refine ⟨.mov hshape hd hlanes hbits fun hT => ?_, rfl, fun z hz hk => ?_⟩
  · rcases htaken with hsame | ⟨-, hplace⟩
    · rw [hsame]
      exact h.notPlace hT hg (.inr htail)
    · exact hplace
  · obtain rfl : z = o.value := by simpa [Body.srcs] using hz
    rcases htaken with hsame | ⟨hnew, -⟩
    · exact .inr (hsame ▸ htail)
    · simp [hnew] at hk

variable [FloatOps]

omit h in
theorem effect_write {e : Env} {p lane : ValueId} {root : VarId} {o slot channel : Nat} {y : Lanes}
    (hp : e.places p = some ⟨root, o⟩) (hroot : vars.get? root = some (x.onChannel channel t))
    (hslot : Checked.fit 32 (x.location.toNat + o) = .ok slot) (hc : channel < 256)
    (hy : e.values lane = some y) :
    e.effect vars none (channelWrite p lane) =
      some (.outputs (e.io.outputs.write ⟨slot, channel⟩ (y.pick 0))) := by
  have hstore : e.stored slot channel 1 1 y = _ := Env.stored_lane hc
  have hplace : e.derefSlot vars p = some (x.onChannel channel t, slot) := by
    simp [Env.derefSlot, hp, hroot, Variable.onChannel, hslot, toOption_ok]
  simpa [channelWrite, Env.effect, Env.access, hplace, hy, Variable.onChannel] using hstore

omit h in
theorem storeDeref_yields {P : Trait} {p lane : ValueId} {bits : Nat} (hp : g.Live p)
    (hlane : g.Live lane) (hshape : g.shape? lane = some ⟨1, bits⟩)
    (hP : P.holds g (channelWrite p lane) none) :
    (Build.storeDeref p lane 1).Yields P g i fun _ news k => ∀ vars e, k.exec? vars news e =
      (e.effect vars none (channelWrite p lane)).map (e.apply none) := by
  have hsrc : ∀ v ∈ (channelWrite p lane).srcs, g.Live v := by
    intro v hv
    rcases List.mem_pair.mp hv with rfl | rfl
    · exact hp
    · exact hlane
  refine Build.shape_obeys hshape ?_
  refine (Build.insert_yields hsrc (by simp [channelWrite, Body.srcs]) (by simp) hP).imp ?_
  rintro n news k - ⟨-, -, -, -, -, hexec⟩
  exact hexec

theorem storeChannel_yields (hv : vars.Extends s.vars) (hg : f.Grows i g) (ht : g.Tidy)
    (hstore : a.kind = .storeDeref) (hsrcs : a.srcs = [target, stored]) {v : ValueId}
    {bits j : Nat} (hlive : g.Live v) (hshape : g.shape? v = some ⟨a.width, bits⟩)
    (htaken : f.Taken g stored v) (hbits : T.narrow → bits = 32) (hj : j < a.width) :
    (ChannelBuild.storeChannel a source x.channel v j).Yields (pieces T f a target n) s g i
      fun _ s' news k => bits = 32 → ∀ vars' e slot y out, s'.vars.Extends vars' →
        Slot f x n target e slot → e.values v = some y →
        Machine.store slot x.channel a.writeMask y e.io.outputs j = .ok out →
        g.Writes vars' e news k out := by
  have hlimit := h.limit
  have hc : x.channel + j < 256 := by omega
  have hsrc : a.src 0 = .ok target := by simp [Access.src, h.head, Checked.inBounds]
  have hmask : Checked.maskBit a.writeMask j = .ok (a.writeMask.testBit j) := if_pos (by omega)
  refine .ok hmask ?_
  cases hbit : a.writeMask.testBit j with
  | false =>
    rw [hbit] at hmask
    refine .pure fun _ vars' e slot y out _ _ _ hout => ?_
    obtain rfl : e.io.outputs = out := by simpa [Env.store_masked y _ hmask] using hout
    exact ⟨e, rfl, .refl _ e, rfl⟩
  | true =>
    rw [hbit] at hmask
    refine .ok (Env.fit_component hc) (.ok hsrc ?_)
    refine (h.channelDeref_yields hv hg (by omega)).bind ?_
    rintro p news ⟨s₁, k⟩ ⟨hs₁, he⟩ ⟨hplive, hpfresh, root, hroot, ⟨m, w, hchain⟩, hpoints⟩
    have hgk := hg.trans he.grows
    have htaken' := htaken.trans (.inl rfl) ht.linked.defined hlive.hasValue hg he.grows
    refine (ChannelBuild.Yields.lift (Build.channel_yields (he.grown.live hlive)
      (he.grown.shape v _ hshape) (by omega) fun o ho hlanes => h.meets_lanes hgk hsrcs ho
        (he.grown.shape v _ hshape) htaken' hbits (by omega) fun _ d hd => by simp_all)).bind ?_
    rintro lane news₂ ⟨s₂, k₂⟩ ⟨-, he₂⟩ ⟨rfl, hllive, hlshape, hltaken, hgives⟩
    have hltaken' := htaken'.trans hltaken he.tidy.linked.defined
      (he.grown.live hlive).hasValue hgk he₂.grows
    refine (ChannelBuild.Yields.lift (storeDeref_yields (he₂.grown.live hplive) hllive hlshape
      (h.meets_write (hgk.trans he₂.grows) hstore hsrcs hpfresh hroot (hchain.grown he₂.grown).1
        hlshape hltaken'))).bind ?_
    rintro _ news₃ ⟨s₃, k₃⟩ ⟨-, he₃⟩ ⟨rfl, hexec⟩
    refine .pure fun h32 vars' e slot y out hx hslot hy hout => ?_
    obtain ⟨o, ho, hfit⟩ := hslot
    obtain ⟨e₁, he₁, ha₁, hio₁, hp₁⟩ := hpoints vars' e o ho
    have hy₁ : e₁.values v = some y := by rw [(ha₁ v hlive.hasValue).1, hy]
    obtain ⟨z, ⟨e₂, he₂', ha₂, hio₂, hz, -⟩, hpick⟩ := hgives h32 vars' e₁ y hy₁
    obtain rfl : e.io.outputs.write ⟨slot, x.channel + j⟩ (y.pick j) = out := by
      simpa [Env.store_kept y _ hmask (by omega) hc] using hout
    have hp₂ : e₂.places p = some ⟨root, o⟩ := by rw [(ha₂ p hplive.hasValue).2, hp₁]
    have heff := effect_write hp₂ (hx _ _ hroot) hfit hc hz
    rw [hpick, hio₂, hio₁] at heff
    have hwrites := he₂.writes_trans he₃ he₂' ha₂ hio₂
      (Function.writes_of_effect (hexec vars' e₂) heff)
    rw [List.append_nil]
    exact he.writes_trans (he₂.trans he₃ he.tidy.linked) he₁ ha₁ hio₁ hwrites

theorem storeEach_yields (hv : vars.Extends s.vars) (hg : f.Grows i g) (ht : g.Tidy)
    (hstore : a.kind = .storeDeref) (hsrcs : a.srcs = [target, stored]) {v : ValueId} {bits : Nat}
    (hlive : g.Live v) (hshape : g.shape? v = some ⟨a.width, bits⟩) (htaken : f.Taken g stored v)
    (hbits : T.narrow → bits = 32) {l : List Nat} (hl : ∀ j ∈ l, j < a.width) :
    ChannelBuild.Yields (pieces T f a target n)
      (l.mapM (ChannelBuild.storeChannel a source x.channel v)) s g i
      fun _ s' news k => bits = 32 → ∀ vars' e slot y out, s'.vars.Extends vars' →
        Slot f x n target e slot → e.values v = some y →
        l.foldlM (Machine.store slot x.channel a.writeMask y) e.io.outputs = .ok out →
        g.Writes vars' e news k out := by
  induction l generalizing s g with
  | nil =>
    refine .pure fun _ vars' e slot y out _ _ _ hout => ?_
    obtain rfl : e.io.outputs = out := by simpa using hout
    exact ⟨e, rfl, .refl _ e, rfl⟩
  | cons j l ih =>
    rw [List.mapM_cons]
    refine (h.storeChannel_yields hv hg ht hstore hsrcs hlive hshape htaken hbits
      (hl j List.mem_cons_self)).bind ?_
    rintro _ news ⟨s₁, k⟩ ⟨hs₁, he⟩ hone
    refine (ih (hv.trans hs₁.vars) (hg.trans he.grows) he.tidy (he.grown.live hlive)
      (he.grown.shape v _ hshape)
      (htaken.trans (.inl rfl) ht.linked.defined hlive.hasValue hg he.grows)
      fun d hd => hl d (List.mem_cons_of_mem j hd)).bind ?_
    rintro _ more ⟨s₂, k₂⟩ ⟨hs₂, he₂⟩ hrest
    refine .pure fun h32 vars' e slot y out hx hslot hy hout => ?_
    rw [List.foldlM_cons, bind_eq_ok] at hout
    obtain ⟨out₁, hout₁, hout⟩ := hout
    obtain ⟨e₁, he₁, ha₁, hio₁⟩ := hone h32 vars' e slot y out₁ (hs₂.vars.trans hx) hslot hy hout₁
    rw [List.append_nil]
    refine (he.mono ((pieces T f a target n).mono hs₂.vars)).writes_trans he₂ he₁ ha₁ hio₁
      (hrest h32 vars' e₁ slot y out hx (h.slot_congr hg ha₁ hslot) ?_ ?_)
    · rw [(ha₁ v hlive.hasValue).1, hy]
    · rw [hio₁, hout]

theorem storeChannels_yields (hv : vars.Extends s.vars) (hstore : a.kind = .storeDeref)
    (hsrcs : a.srcs = [target, stored]) (h1 : 1 ≤ a.width) {shape : Shape}
    (hshape : f.shape? stored = some shape) (hwide : T.exact → a.width ≤ shape.width)
    (hbits : T.narrow → shape.bits = 32) :
    (ChannelBuild.storeChannels a source).Yields (pieces T f a target n) s f i
      fun _ s' news k => shape.bits = 32 → ∀ vars' e slot y out, s'.vars.Extends vars' →
        Slot f x n target e slot → e.values stored = some y →
        (List.range a.width).foldlM (Machine.store slot x.channel a.writeMask y) e.io.outputs =
          .ok out → f.Writes vars' e news k out := by
  have hlimit := h.limit
  have hget : s.vars.get source = .ok x := by simp [Variables.get, hv _ x h.var, Checked.inBounds]
  have hsrc : a.src 1 = .ok stored := by simp [Access.src, hsrcs, Checked.inBounds]
  have hlive : f.Live stored := h.live_tail (by simp [hsrcs])
  refine .splitting (.ok hget (.ok hsrc ?_))
  rw [Build.materialize_whole stored (by omega)]
  have hfour : ∀ d ∈ List.range a.width, d < 4 := by
    intro d hd
    have := List.mem_range.mp hd
    omega
  have hpiece : ∀ o : Operand, o.value = stored →
      o.swizzle.toList.take (List.range a.width).length = List.range a.width →
      ((pieces T f a target n).given s.vars).holds f (.alu ⟨.mov, [o]⟩)
        (some ⟨(List.range a.width).length, shape.bits⟩) := by
    intro o ho hlanes
    refine h.meets_lanes (.refl f i) hsrcs ho hshape (.inl rfl) hbits (by simp; omega)
      fun hT j hj => ?_
    rw [hlanes, List.mem_range] at hj
    exact lt_of_lt_of_le hj (hwide hT)
  refine (ChannelBuild.Yields.lift (Build.swizzle_yields hlive hshape (by simpa using h1)
    (by simp; omega) hfour hpiece)).bind ?_
  rintro w news ⟨s₁, k⟩ ⟨-, he⟩ ⟨rfl, hwlive, hwshape, hwtaken, hgives⟩
  rw [List.length_range] at hwshape
  refine (h.storeEach_yields hv he.grows he.tidy hstore hsrcs hwlive hwshape hwtaken hbits
    fun d hd => List.mem_range.mp hd).imp ?_
  rintro _ more ⟨s₂, k₂⟩ ⟨hs₂, he₂⟩ hrest
  intro h32 vars' e slot y out hx hslot hy hout
  obtain ⟨z, ⟨e₁, he₁, ha₁, hio₁, hz, -⟩, hpick⟩ := hgives h32 vars' e y hy
  refine (he.mono ((pieces T f a target n).mono hs₂.vars)).writes_trans he₂ he₁ ha₁ hio₁
    (hrest h32 vars' e₁ slot z out hx (h.slot_congr (.refl f i) ha₁ hslot) hz ?_)
  rw [hio₁, ← hout]
  refine Env.foldlM_store_congr (fun d hd => ⟨hfour d hd, ?_⟩) _
  have hdw : d < a.width := List.mem_range.mp hd
  rw [hpick d (by simpa using hdw)]
  simp [hdw]

end Site

end ShaderSSA
