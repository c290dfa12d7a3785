import ShaderSSA.Proofs.Building
import ShaderSSA.Proofs.Chains
import ShaderSSA.Split.Variables

/-! What splitting asks of a function and leaves behind it. Each term can be asked for or not: a
split keeps the terms that held before. -/

namespace ShaderSSA

structure Terms where
  /-- All values are 32 bits wide. -/
  narrow : Prop
  /-- The channels of a flat access lie in one slot. -/
  flat : Prop
  /-- Deref accesses go through chains, within the slot if they are to be split. -/
  derefs : Prop
  /-- Operands fit, and accesses are as wide as what they load and no wider than what they store. -/
  exact : Prop
  /-- Places are read as places only. -/
  apart : Prop
  /-- Operands are defined at dominating points. -/
  ordered : Prop
  stage : Stage
  modes : Mode

namespace Terms

/-- The accesses whose widths matter. -/
def Covers (T : Terms) (kind : Intrinsic) : Prop :=
  T.flat ∧ kind.hasComponent ∨ T.derefs ∧ kind.isDerefAccess

end Terms

/-- Whether an access to the given variable is split into channel variables. -/
def Access.Splits (stage : Stage) (modes : Mode) (a : Access) (x : Variable) : Prop :=
  a.width ≠ 1 ∧ x.canSplit stage ∧ Function.splitsAccess a.kind x.mode modes

/-- The access reads a chain from a variable and stays within the slot if it is split. -/
def Access.Chained (stage : Stage) (modes : Mode) (vars : Variables) (f : Function) (a : Access) :
    Prop :=
  ∃ v root x n t, a.srcs[0]? = some v ∧ vars.get? root = some x ∧ f.Chain root x n v t ∧
    (a.Splits stage modes x → x.channel + a.width ≤ 4)

structure Access.Meets (T : Terms) (vars : Variables) (f : Function) (a : Access)
    (dest : Option Shape) : Prop where
  arity : a.srcs.length = a.kind.arity
  result : T.Covers a.kind → (dest.isSome ↔ a.kind.hasDest)
  width : T.Covers a.kind → 1 ≤ a.width ∧ a.width ≤ 4
  slot : T.flat → a.kind.hasComponent → a.component + a.width ≤ 256
  chain : T.derefs → a.kind.isDerefAccess → a.Chained T.stage T.modes vars f
  loaded : T.exact → T.Covers a.kind → ∀ s, dest = some s → s.width = a.width
  stored : T.exact → T.Covers a.kind → ∀ slot v s, a.kind.storedSlot? = some slot →
    a.srcs[slot]? = some v → f.shape? v = some s → a.width ≤ s.width

structure Body.Meets (T : Terms) (vars : Variables) (f : Function) (body : Body)
    (dest : Option Shape) : Prop where
  bits : T.narrow → ∀ s, dest = some s → s.bits = 32
  access : ∀ a, body = .access a → a.Meets T vars f dest
  fits : T.exact → f.BodyFits dest body
  apart : T.apart → ∀ slot v, body.srcs[slot]? = some v → f.isPlace v → body.isPlaceSlot slot

theorem maskFrom_one : Checked.maskFrom 1 1 = .ok 0 := by simp [Checked.maskFrom]

section Meeting

variable {T : Terms} {vars vars' : Variables} {f g h : Function} {body : Body}
  {dest : Option Shape} {i : InstrId} {news : List InstrId}

theorem Access.Chained.extends {a : Access} {stage : Stage} {modes : Mode}
    (h : a.Chained stage modes vars f) (hx : vars.Extends vars') :
    a.Chained stage modes vars' f := by
  obtain ⟨v, root, x, n, t, hv, hroot, hrest⟩ := h
  exact ⟨v, root, x, n, t, hv, hx root x hroot, hrest⟩

theorem Body.Meets.extends (h : body.Meets T vars f dest) (hx : vars.Extends vars') :
    body.Meets T vars' f dest :=
  ⟨h.bits, fun a ha => { h.access a ha with
    chain := fun hT hk => ((h.access a ha).chain hT hk).extends hx }, h.fits, h.apart⟩

theorem Body.Meets.grows (h : body.Meets T vars f dest) (hf : f.Defined) (hg : f.Grown i news g)
    (hlive : ∀ v ∈ body.srcs, f.Live v) : body.Meets T vars g dest := by
  refine ⟨h.bits, ?_, fun hT => (h.fits hT).mono hg.shape, fun hT slot v hv hp => ?_⟩
  · rintro a rfl
    have ha := h.access a rfl
    refine { ha with chain := fun hT hk => ?_, stored := fun hT hc slot v s hslot hv hs => ?_ }
    · obtain ⟨v, root, x, n, t, hv, hroot, hchain, hlimit⟩ := ha.chain hT hk
      exact ⟨v, root, x, n, t, hv, hroot, (hchain.grown hg).1, hlimit⟩
    · obtain ⟨s', hs'⟩ := Function.exists_shape (hlive v (List.mem_of_getElem? hv)).hasValue
      obtain rfl : s' = s := by simpa [hg.shape v s' hs'] using hs
      exact ha.stored hT hc slot v s' hslot hv hs'
  · refine h.apart hT slot v hv ?_
    rwa [← hg.isPlace hf (hlive v (List.mem_of_getElem? hv)).hasValue]

theorem Body.Meets.mov {o : Operand} {s : Shape} {n : Nat} (hs : f.shape? o.value = some s)
    (hn : n ≤ 4) (hlanes : T.exact → ∀ k ∈ o.swizzle.toList.take n, k < s.width)
    (hbits : T.narrow → s.bits = 32) (hplace : T.apart → f.isPlace o.value = false) :
    (Body.alu ⟨.mov, [o]⟩).Meets T vars f (some ⟨n, s.bits⟩) := by
  refine ⟨?_, by simp, fun hT => ⟨rfl, fun slot p hp => ?_⟩, fun hT slot v hv hp => ?_⟩
  · rintro hT _ ⟨rfl⟩
    exact hbits hT
  · obtain ⟨rfl, rfl⟩ : slot = 0 ∧ o = p := by
      cases slot with
      | zero => simpa using hp
      | succ slot => simp at hp
    exact ⟨n, s, rfl, hs, hn, hlanes hT⟩
  · obtain rfl : o.value = v := by
      cases slot with
      | zero => simpa [Body.srcs] using hv
      | succ slot => simp [Body.srcs] at hv
    simp [hplace hT] at hp

theorem Body.Meets.vec {op : AluOp} {vs : List ValueId} {bits : Nat}
    (hop : AluOp.construct? vs.length = some op) (hs : ∀ v ∈ vs, f.shape? v = some ⟨1, bits⟩)
    (hbits : T.narrow → bits = 32) (hplace : T.apart → ∀ v ∈ vs, f.isPlace v = false) :
    (Body.alu ⟨op, vs.map (.channel · 0)⟩).Meets T vars f (some ⟨vs.length, bits⟩) := by
  have hread : op.arity = vs.length ∧ ∀ slot < vs.length,
      op.readWidth? (some ⟨vs.length, bits⟩) slot = some 1 := by
    rcases AluOp.construct?_cases hop with ⟨hl, rfl⟩ | ⟨hl, rfl⟩ | ⟨hl, rfl⟩
    all_goals
      rw [hl]
      refine ⟨rfl, fun slot hslot => ?_⟩
      interval_cases slot <;> rfl
  refine ⟨?_, by simp, fun hT => ⟨by simp [hread.1], fun slot p hp => ?_⟩,
    fun hT slot v hv hp => ?_⟩
  · rintro hT _ ⟨rfl⟩
    exact hbits hT
  · rw [List.getElem?_map, Option.map_eq_some_iff] at hp
    obtain ⟨v, hv, rfl⟩ := hp
    obtain ⟨hslot, -⟩ := List.getElem?_eq_some_iff.mp hv
    exact ⟨1, ⟨1, bits⟩, hread.2 slot hslot, hs v (List.mem_of_getElem? hv), by omega,
      by simp [Operand.channel]⟩
  · have hmem : v ∈ vs := by
      have := List.mem_of_getElem? hv
      simpa [Body.srcs, Operand.channel, Function.comp_def] using this
    simp [hplace hT v hmem] at hp

theorem Body.Meets.notPlace {body : Body} {dest : Option Shape} (h : body.Meets T vars f dest)
    (hT : T.apart) (slot : Nat) {v : ValueId} (hv : body.srcs[slot]? = some v)
    (hslot : body.isPlaceSlot slot = false) : f.isPlace v = false := by
  by_contra hp
  have := h.apart hT slot v hv (by simpa using hp)
  simp [hslot] at this

theorem Body.isPlaceSlot_zero {body : Body} {slot : Nat} (h : body.isPlaceSlot slot) :
    slot = 0 ∧ body.isPlaceSlot 0 := by
  cases body <;> simp_all [Body.isPlaceSlot]

theorem Body.isPlaceSlot_mapSrcs (body : Body) (ρ : Nat → ValueId → ValueId) (slot : Nat) :
    (body.mapSrcs ρ).isPlaceSlot slot = body.isPlaceSlot slot := by
  rcases body with _ | _ | ⟨⟨_ | _, _, _⟩⟩ | _ | _ <;> rfl

theorem Body.deref?_mapSrcs (body : Body) (ρ : Nat → ValueId → ValueId) :
    (body.mapSrcs ρ).deref?.isSome = body.deref?.isSome := by
  rcases body with _ | _ | ⟨⟨_ | _, _, _⟩⟩ | _ | _ <;> rfl

theorem Body.mapSrcs_eq_access {body : Body} {ρ : Nat → ValueId → ValueId} {a : Access} :
    body.mapSrcs ρ = .access a ↔
      ∃ a', body = .access a' ∧ a = { a' with srcs := a'.srcs.mapIdx ρ } := by
  rcases body with _ | _ | ⟨⟨_ | _, _, _⟩⟩ | _ | _ <;> simp [Body.mapSrcs, eq_comm]

theorem Body.deref?_eq_some {body : Body} {d : Deref} : body.deref? = some d ↔ body = .deref d := by
  cases body <;> simp [Body.deref?]

/-- `w` may be read for `v`. -/
structure Function.Serves (T : Terms) (f : Function) (v w : ValueId) : Prop where
  live : f.Live w
  same : w = v ∨ f.isPlace v = false ∧ f.isPlace w = false
  shape : T.exact → f.shape? w = f.shape? v

theorem Function.Serves.refl {v : ValueId} (h : f.Live v) : f.Serves T v v :=
  ⟨h, .inl rfl, fun _ => rfl⟩

variable {ρ : ValueId → ValueId}

theorem Function.Replaced.isPlace (hr : f.Replaced i ρ g) {v : ValueId} (hv : f.Live v) :
    g.isPlace v = f.isPlace v := by
  obtain ⟨j, b, hs, hj⟩ := hv
  obtain ⟨x, hx, -⟩ := home?_eq_some.mp hj
  have hbody : f.body? j = some x.body := by simp [body?, hx]
  have hs' : g.source? v = some j := by rw [hr.source, hs]
  have hbody' : g.body? j = some (x.body.mapSrcs fun _ => ρ) := by rw [hr.body j b hj, hbody]; rfl
  rw [isPlace_eq hs hbody, isPlace_eq hs' hbody', Body.deref?_mapSrcs]

theorem Function.Replaced.bodyFits (hr : f.Replaced i ρ g)
    (hshape : ∀ v ∈ body.srcs, f.shape? (ρ v) = f.shape? v) (h : f.BodyFits dest body) :
    g.BodyFits dest (body.mapSrcs fun _ => ρ) := by
  cases body with
  | alu a =>
    refine ⟨by simpa [Body.mapSrcs] using h.1, fun slot o ho => ?_⟩
    simp only [List.getElem?_mapIdx, Option.map_eq_some_iff] at ho
    obtain ⟨o, ho, rfl⟩ := ho
    obtain ⟨n, s, hn, hs, hrest⟩ := h.2 slot o ho
    have hmem : o.value ∈ (Body.alu a).srcs := List.mem_map.mpr ⟨o, List.mem_of_getElem? ho, rfl⟩
    exact ⟨n, s, hn, by rw [hr.shape, hshape o.value hmem, hs], hrest⟩
  | access a => exact ⟨by simpa [Body.mapSrcs] using h.1, h.2⟩
  | deref d =>
    obtain ⟨step, mode, type⟩ := d
    cases step <;> trivial
  | const l => trivial
  | undef => trivial

theorem Access.Meets.replaced {a : Access} (ha : a.Meets T vars f dest) (hr : f.Replaced i ρ g)
    (hc : f.Closed) (hlive : ∀ v ∈ a.srcs, f.Live v)
    (hρ : ∀ v, f.Live v → f.Serves T v (ρ v)) :
    Access.Meets T vars g { a with srcs := a.srcs.mapIdx fun _ => ρ } dest := by
  have hsrc : ∀ (slot : Nat) w, (a.srcs.mapIdx fun _ => ρ)[slot]? = some w →
      ∃ v, a.srcs[slot]? = some v ∧ ρ v = w := by
    intro slot w hw
    rwa [List.getElem?_mapIdx, Option.map_eq_some_iff] at hw
  refine ⟨by simpa using ha.arity, ha.result, ha.width, ha.slot, fun hT hk => ?_, ha.loaded,
    fun hT hk slot w s hslot hw hs => ?_⟩
  · obtain ⟨v, root, x, n, t, hv, hroot, hchain, hlimit⟩ := ha.chain hT hk
    have hvl := hlive v (List.mem_of_getElem? hv)
    have hfix : ∀ w, f.Live w → f.isPlace w → ρ w = w := by
      intro w hw hp
      rcases (hρ w hw).same with h | ⟨h, -⟩
      · exact h
      · simp [h] at hp
    refine ⟨v, root, x, n, t, ?_, hroot, ?_, hlimit⟩
    · rw [List.getElem?_mapIdx, hv, Option.map_some, hfix v hvl hchain.isPlace]
    · refine hchain.kept hc hvl fun j b d w hj hd hs => ⟨by rw [hr.source, hs], fun _ => ρ, ?_,
        fun z hz hp => hfix z hz hp⟩
      rw [hr.body j b hj, hd, Option.map_some]
  · obtain ⟨v, hv, rfl⟩ := hsrc slot w hw
    refine ha.stored hT hk slot v s hslot hv ?_
    rw [← (hρ v (hlive v (List.mem_of_getElem? hv))).shape hT, ← hr.shape, hs]

theorem Body.Meets.replaced (h : body.Meets T vars f dest) (hr : f.Replaced i ρ g)
    (hc : f.Closed) (hlive : ∀ v ∈ body.srcs, f.Live v)
    (hρ : ∀ v, f.Live v → f.Serves T v (ρ v)) :
    (body.mapSrcs fun _ => ρ).Meets T vars g dest := by
  refine ⟨h.bits, fun a ha => ?_, fun hT => hr.bodyFits
    (fun v hv => (hρ v (hlive v hv)).shape hT) (h.fits hT), fun hT slot w hw hp => ?_⟩
  · obtain ⟨a', rfl, rfl⟩ := Body.mapSrcs_eq_access.mp ha
    exact (h.access a' rfl).replaced hr hc hlive hρ
  · rw [Body.getElem?_srcs_mapSrcs, Option.map_eq_some_iff] at hw
    obtain ⟨v, hv, rfl⟩ := hw
    have hs := hρ v (hlive v (List.mem_of_getElem? hv))
    rw [hr.isPlace hs.live] at hp
    rw [Body.isPlaceSlot_mapSrcs]
    rcases hs.same with hsame | ⟨-, hnot⟩
    · exact h.apart hT slot v hv (hsame ▸ hp)
    · simp [hnot] at hp

end Meeting

namespace Function

/-- Nothing is out of place, everything read is defined, and the terms hold. -/
structure Sound (T : Terms) (vars : Variables) (f : Function) : Prop where
  tidy : f.Tidy
  closed : f.Closed
  bodies : ∀ i b body, f.home? i = some b → f.body? i = some body →
    body.Meets T vars f (f.destShape? i)
  conditions : T.apart → ∀ b v, f.condition? b = some v → f.isPlace v = false
  ordered : T.ordered → f.DominanceRespecting

variable {T : Terms} {vars vars' : Variables} {f : Function} {i : InstrId} {b : BlockId}
  {body : Body} {v : ValueId}

theorem Defined.isSome_destShape (hf : f.Defined) (i : InstrId) :
    (f.destShape? i).isSome = (f.dest? i).isSome := by
  simp only [destShape?]
  cases hd : f.dest? i with
  | none => rfl
  | some v =>
    have hs := (hf.iff i v).mp hd
    obtain ⟨x, hx, -⟩ := Option.map_eq_some_iff.mp hs
    simp [shape?, hx]

theorem Sound.extends (h : f.Sound T vars) (hx : vars.Extends vars') : f.Sound T vars' :=
  { h with bodies := fun i b body hi hb => (h.bodies i b body hi hb).extends hx }

theorem Closed.live_src (h : f.Closed) (hi : f.home? i = some b) (hbody : f.body? i = some body)
    (hv : v ∈ body.srcs) : f.Live v := by
  obtain ⟨s, hs⟩ := reads?_of_mem hi hbody hv
  exact h.source _ v hs

theorem Sound.bits (hf : f.Sound T vars) (hT : T.narrow) (hv : f.Live v) {s : Shape}
    (hs : f.shape? v = some s) : s.bits = 32 := by
  obtain ⟨j, b, hsource, hj⟩ := hv
  obtain ⟨x, hx, -⟩ := home?_eq_some.mp hj
  have hd := (hf.tidy.linked.defined.iff j v).mpr hsource
  exact (hf.bodies j b x.body hj (by simp [body?, hx])).bits hT s (by simp [destShape?, hd, hs])

theorem Sound.chained (hf : f.Sound T vars) (hT : T.derefs) (hi : f.home? i = some b) (a : Access)
    (hbody : f.body? i = some (.access a)) (hk : a.kind.isDerefAccess) :
    a.Chained T.stage T.modes vars f :=
  ((hf.bodies i b _ hi hbody).access a rfl).chain hT hk

theorem Sound.notPlace_index (hf : f.Sound T vars) (hT : T.apart) {root : VarId} {x : Variable}
    {n : Nat} {t : VarType} (h : f.Chain root x n v t) (hv : f.Live v) :
    ∀ z ∈ f.indices n v, f.isPlace z = false := by
  induction h with
  | var hs hb => simp [indices, hs, hb]
  | @element n v parent index i type length hs hb hp ih =>
    obtain ⟨j, b, hj, hjb⟩ := hv
    obtain rfl : i = j := by simpa [hs] using hj
    intro z hz
    simp only [indices, hs, hb, Option.bind_some, List.mem_cons] at hz
    rcases hz with rfl | hz
    · exact (hf.bodies i b _ hjb hb).notPlace hT 1 rfl rfl
    · exact ih (hf.closed.live_src hjb hb (by simp [Body.srcs])) z hz

end Function

end ShaderSSA
