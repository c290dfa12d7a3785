import ShaderSSA.Proofs.Building
import ShaderSSA.Split.Flat

/-! The instructions a flat access is split into: one load for each channel and the vector of
them, or one store for each channel of the mask. -/

namespace ShaderSSA.Function

variable {P : Trait} {f : Function} {i : InstrId} {offset : ValueId}

/-- The load of one channel. -/
def channelLoad (a : Access) (offset : ValueId) (k : Nat) : Body :=
  .access ⟨.loadInput, 1, [offset], a.base, a.component + k, 0⟩

/-- The store of one channel from a scalar. -/
def channelStore (a : Access) (lane offset : ValueId) (k : Nat) : Body :=
  .access ⟨.storeOutput, 1, [lane, offset], a.base, a.component + k, 1⟩

theorem flatSlot_congr {K : ValueId → Prop} {e e₁ : Env} {base : Nat} (ha : e.Agrees K e₁)
    (hv : K offset) : e₁.flatSlot base offset = e.flatSlot base offset := by
  simp only [Env.flatSlot, (ha offset hv).1]

variable [FloatOps]

theorem effect_channelLoad {e : Env} {vars : Variables} {a : Access} {k slot : Nat}
    {shape : Option Shape} (hk : a.component + k < 256)
    (hslot : e.flatSlot a.base offset = some slot) :
    e.effect vars shape (channelLoad a offset k) =
      some (.value (.ofList [e.io.inputs.read ⟨slot, a.component + k⟩])) := by
  have hload : Env.loaded e.io.inputs slot (a.component + k) 1 = _ :=
    Env.loaded_eq e.io.inputs slot (by omega) hk
  simpa [channelLoad, Env.effect, Env.access, hslot, List.range_succ] using hload

theorem channelLoads_yields {a : Access} {bits : Nat} {l : List Nat} (hoff : f.Live offset)
    (hl : ∀ k ∈ l, a.component + k < 256)
    (hP : ∀ k ∈ l, ∀ g, f.Grows i g → P.holds g (channelLoad a offset k) (some ⟨1, bits⟩)) :
    Build.Yields P (l.mapM fun k => do
      Build.loadInput ⟨1, bits⟩ offset a.base (← Checked.fit 8 (a.component + k))) f i
      fun vs news g => vs.length = l.length ∧
        (∀ v ∈ vs, f.hasValue v = false ∧ g.Live v ∧ g.shape? v = some ⟨1, bits⟩ ∧
          g.isPlace v = false) ∧
        ∀ vars e slot, e.flatSlot a.base offset = some slot →
          ∃ e₁, g.exec? vars news e = some e₁ ∧ e.Agrees (fun w => f.hasValue w) e₁ ∧
            e₁.io = e.io ∧ ∀ (s : Nat) v k, vs[s]? = some v → l[s]? = some k →
              e₁.values v = some (.ofList [e.io.inputs.read ⟨slot, a.component + k⟩]) := by
  induction l generalizing f with
  | nil =>
    exact .pure ⟨rfl, by simp, fun vars e slot _ => ⟨e, rfl, .refl _ e, rfl, by simp⟩⟩
  | cons k l ih =>
    have hk : a.component + k < 256 := hl k List.mem_cons_self
    have hone : Build.Yields P (do
        Build.loadInput ⟨1, bits⟩ offset a.base (← Checked.fit 8 (a.component + k))) f i
        (f.Defines (channelLoad a offset k) ⟨1, bits⟩) := by
      rw [Env.fit_component hk]
      exact Build.insertValue_yields (by simpa [channelLoad, Body.srcs] using hoff)
        (by simp [Body.srcs]) (by simp) (hP k List.mem_cons_self f (.refl f i))
    rw [List.mapM_cons]
    refine .bind hone fun v news g he hd => ?_
    refine .bind (ih (he.grown.live hoff) (fun j hj => hl j (List.mem_cons_of_mem k hj))
      fun j hj h hh => hP j (List.mem_cons_of_mem k hj) h (he.grows.trans hh)) ?_
    rintro vs more h he' ⟨hlen, hvs, hexec⟩
    refine .pure ⟨by simp [hlen], ?_, ?_⟩
    · intro w hw
      rcases List.mem_cons.mp hw with rfl | hw
      · refine ⟨hd.fresh, he'.grown.live hd.live, he'.grown.shape _ _ hd.shape, ?_⟩
        rw [he'.grown.isPlace he.tidy.linked.defined hd.live.hasValue, hd.place]
        rfl
      · obtain ⟨hfresh, hlive, hshape, hplace⟩ := hvs w hw
        exact ⟨he.grown.absent hfresh, hlive, hshape, hplace⟩
    · intro vars e slot hslot
      obtain ⟨e₁, he₁, ha₁, hio₁, hv, -⟩ := hd.gives (effect_channelLoad hk hslot)
      have hslot₁ : e₁.flatSlot a.base offset = some slot := by
        rw [flatSlot_congr ha₁ hoff.hasValue, hslot]
      obtain ⟨e₂, he₂, ha₂, hio₂, hvals⟩ := hexec vars e₁ slot hslot₁
      refine ⟨e₂, ?_, he.agrees_trans ha₁ ha₂, hio₂.trans hio₁, ?_⟩
      · rw [List.append_nil, he.exec_append he' he₁, he₂]
      · intro s w j hw hj
        cases s with
        | zero =>
          obtain rfl : v = w := by simpa using hw
          obtain rfl : k = j := by simpa using hj
          rw [(ha₂ v hd.live.hasValue).1, hv]
        | succ s =>
          rw [hvals s w j (by simpa using hw) (by simpa using hj), hio₁]

theorem loadChannels_yields {a : Access} {bits : Nat} (hoff : f.Live offset) (h2 : 2 ≤ a.width)
    (h4 : a.width ≤ 4) (hc : a.component + a.width ≤ 256)
    (hP : ∀ k < a.width, ∀ g, f.Grows i g → P.holds g (channelLoad a offset k) (some ⟨1, bits⟩))
    (hvec : ∀ g op (vs : List ValueId), f.Grows i g → vs.length = a.width →
      AluOp.construct? vs.length = some op → (∀ v ∈ vs, f.hasValue v = false ∧
        g.shape? v = some ⟨1, bits⟩ ∧ g.isPlace v = false) →
      P.holds g (.alu ⟨op, vs.map (.channel · 0)⟩) (some ⟨vs.length, bits⟩)) :
    (loadChannels a bits offset).Yields P f i fun v news g => f.hasValue v = false ∧
      g.Live v ∧ g.shape? v = some ⟨a.width, bits⟩ ∧ g.isPlace v = false ∧ (bits = 32 →
        ∀ vars e slot, e.flatSlot a.base offset = some slot → f.Gives vars e news g v
          (.ofList ((List.range a.width).map fun k =>
            e.io.inputs.read ⟨slot, a.component + k⟩))) := by
  have hloads := channelLoads_yields (l := List.range a.width) hoff
    (fun k hk => by have := List.mem_range.mp hk; omega) fun k hk => hP k (List.mem_range.mp hk)
  refine .bind hloads ?_
  rintro vs news g he ⟨hlen, hvs, hexec⟩
  rw [List.length_range] at hlen
  have h2' : 2 ≤ vs.length := by omega
  have h4' : vs.length ≤ 4 := by omega
  refine (Build.vec_yields h2' h4' (fun v hv => (hvs v hv).2.1)
    (fun v hv => ⟨_, (hvs v hv).2.2.1, rfl⟩) fun op hop => hvec g op vs he.grows hlen hop
      fun v hv => ⟨(hvs v hv).1, (hvs v hv).2.2.1, (hvs v hv).2.2.2⟩).imp ?_
  rintro v more h he' ⟨hfresh, hlive, hshape, hplace, hgives⟩
  refine ⟨he.grown.absent hfresh, hlive, hlen ▸ hshape, hplace, fun hbits vars e slot hslot => ?_⟩
  obtain ⟨e₁, he₁, ha₁, hio₁, hvals⟩ := hexec vars e slot hslot
  refine he.gives_trans he' he₁ ha₁ hio₁ hfresh ?_
  have hlanes := hgives hbits vars e₁
    ((List.range a.width).map fun k => .ofList [e.io.inputs.read ⟨slot, a.component + k⟩])
    (by simp [hlen]) fun s w x hw hx => by
      rw [List.getElem?_map, Option.map_eq_some_iff] at hx
      obtain ⟨k, hk, rfl⟩ := hx
      exact hvals s w k hw hk
  have hfirst : ∀ y : UInt32, (Lanes.ofList [y]).first = y := fun y => rfl
  simpa only [List.map_map, Function.comp_def, hfirst] using hlanes

theorem effect_channelStore {e : Env} {vars : Variables} {a : Access} {k slot : Nat}
    {lane : ValueId} {y : Lanes} (hk : a.component + k < 256)
    (hslot : e.flatSlot a.base offset = some slot) (hy : e.values lane = some y) :
    e.effect vars none (channelStore a lane offset k) =
      some (.outputs (e.io.outputs.write ⟨slot, a.component + k⟩ (y.pick 0))) := by
  have hstore : e.stored slot (a.component + k) 1 1 y = _ := Env.stored_lane hk
  simpa [channelStore, Env.effect, Env.access, hslot, hy] using hstore

theorem storeOutput_yields {a : Access} {lane : ValueId} {k : Nat} {s : Shape}
    (hlane : f.Live lane) (hshape : f.shape? lane = some s) (hwidth : s.width = 1)
    (hoff : f.Live offset) (hP : P.holds f (channelStore a lane offset k) none) :
    (Build.storeOutput lane offset a.base (a.component + k) 1).Yields P f i fun _ news g =>
      ∀ vars e, g.exec? vars news e =
        (e.effect vars none (channelStore a lane offset k)).map (e.apply none) := by
  have hsrc : ∀ v ∈ (channelStore a lane offset k).srcs, f.Live v := by
    intro v hv
    rcases List.mem_pair.mp hv with rfl | rfl
    · exact hlane
    · exact hoff
  have hlen : (channelStore a lane offset k).srcs.length ≤ 256 := by
    simp [channelStore, Body.srcs]
  refine Build.shape_obeys hshape ?_
  rw [hwidth]
  refine (Build.insert_yields hsrc hlen (by simp) hP).imp ?_
  rintro n news g - ⟨-, -, -, -, -, hexec⟩
  exact hexec

theorem storeChannel_yields {a : Access} {v : ValueId} {k : Nat} {s : Shape} (hv : f.Live v)
    (hshape : f.shape? v = some s) (hoff : f.Live offset) (hk : k < 4) (hc : a.component + k < 256)
    (hmov : ∀ o, o.value = v → o.swizzle.toList.take 1 = [k] →
      P.holds f (.alu ⟨.mov, [o]⟩) (some ⟨1, s.bits⟩))
    (hP : ∀ g lane, f.Grows i g → g.shape? lane = some ⟨1, s.bits⟩ → f.Taken g v lane →
      P.holds g (channelStore a lane offset k) none) :
    (storeChannel a v offset k).Yields P f i fun _ news g => s.bits = 32 →
      ∀ vars e slot x out, e.flatSlot a.base offset = some slot → e.values v = some x →
        Machine.store slot a.component a.writeMask x e.io.outputs k = .ok out →
        f.Writes vars e news g out := by
  have hmask : Checked.maskBit a.writeMask k = .ok (a.writeMask.testBit k) :=
    if_pos (by omega)
  unfold storeChannel
  rw [hmask, lift_ok_bind]
  cases hbit : a.writeMask.testBit k with
  | false =>
    rw [hbit] at hmask
    refine .pure fun _ vars e slot x out _ _ hout => ?_
    obtain rfl : e.io.outputs = out := by simpa [Env.store_masked x _ hmask] using hout
    exact ⟨e, rfl, .refl _ e, rfl⟩
  | true =>
    rw [hbit] at hmask
    refine .bind (Build.channel_yields hv hshape hk hmov) ?_
    rintro lane news g he ⟨hlive, hlane, hnew, hgives⟩
    rw [Env.fit_component hc, lift_ok_bind]
    refine .bind (storeOutput_yields hlive hlane rfl (he.grown.live hoff)
      (hP g lane he.grows hlane hnew)) fun n more h he' hexec => ?_
    refine .pure fun hbits vars e slot x out hslot hx hout => ?_
    obtain ⟨y, ⟨e₁, he₁, ha₁, hio₁, hy, -⟩, hpick⟩ := hgives hbits vars e x hx
    obtain rfl : e.io.outputs.write ⟨slot, a.component + k⟩ (x.pick k) = out := by
      simpa [Env.store_kept x _ hmask hk hc] using hout
    have hslot₁ : e₁.flatSlot a.base offset = some slot := by
      rw [flatSlot_congr ha₁ hoff.hasValue, hslot]
    rw [List.append_nil]
    refine he.writes_trans he' he₁ ha₁ hio₁ ?_
    rw [← hpick, ← hio₁]
    exact writes_of_effect (hexec vars e₁) (effect_channelStore hc hslot₁ hy)

theorem storeEach_yields {a : Access} {v : ValueId} {l : List Nat} {s : Shape} (hv : f.Live v)
    (hshape : f.shape? v = some s) (hoff : f.Live offset)
    (hl : ∀ k ∈ l, k < 4 ∧ a.component + k < 256)
    (hmov : ∀ g, f.Grows i g → ∀ k ∈ l, ∀ o, o.value = v → o.swizzle.toList.take 1 = [k] →
      P.holds g (.alu ⟨.mov, [o]⟩) (some ⟨1, s.bits⟩))
    (hP : ∀ g lane, f.Grows i g → ∀ k ∈ l, g.shape? lane = some ⟨1, s.bits⟩ → f.Taken g v lane →
      P.holds g (channelStore a lane offset k) none) :
    (l.mapM (storeChannel a v offset)).Yields P f i fun _ news g => s.bits = 32 →
      ∀ vars e slot x out, e.flatSlot a.base offset = some slot → e.values v = some x →
        l.foldlM (Machine.store slot a.component a.writeMask x) e.io.outputs = .ok out →
        f.Writes vars e news g out := by
  induction l generalizing f with
  | nil =>
    refine .pure fun _ vars e slot x out _ _ hout => ?_
    obtain rfl : e.io.outputs = out := by simpa using hout
    exact ⟨e, rfl, .refl _ e, rfl⟩
  | cons k l ih =>
    obtain ⟨hk, hc⟩ := hl k List.mem_cons_self
    rw [List.mapM_cons]
    refine .bind (storeChannel_yields hv hshape hoff hk hc
      (hmov f (.refl f i) k List.mem_cons_self)
      fun g lane hg => hP g lane hg k List.mem_cons_self) fun _ news g he hone => ?_
    have hgrows := he.grows
    refine .bind (ih (he.grown.live hv) (he.grown.shape v s hshape) (he.grown.live hoff)
      (fun j hj => hl j (List.mem_cons_of_mem k hj))
      (fun h hh j hj => hmov h (hgrows.trans hh) j (List.mem_cons_of_mem k hj))
      fun h lane hh j hj hlane hnew => hP h lane (hgrows.trans hh) j (List.mem_cons_of_mem k hj)
        hlane (hnew.imp_right (.imp_left he.grown.absent))) fun _ more h he' hrest => ?_
    refine .pure fun hbits vars e slot x out hslot hx hout => ?_
    rw [List.foldlM_cons, bind_eq_ok] at hout
    obtain ⟨out₁, hout₁, hout⟩ := hout
    obtain ⟨e₁, he₁, ha₁, hio₁⟩ := hone hbits vars e slot x out₁ hslot hx hout₁
    rw [List.append_nil]
    refine he.writes_trans he' he₁ ha₁ hio₁ (hrest hbits vars e₁ slot x out ?_ ?_ ?_)
    · rw [flatSlot_congr ha₁ hoff.hasValue, hslot]
    · rw [(ha₁ v hv.hasValue).1, hx]
    · rw [hio₁, hout]

theorem storeChannels_yields {a : Access} {v : ValueId} {s : Shape} (hv : f.Live v)
    (hshape : f.shape? v = some s) (hoff : f.Live offset) (h1 : 1 ≤ a.width) (h4 : a.width ≤ 4)
    (hc : a.component + a.width ≤ 256)
    (hall : ∀ o, o.value = v → o.swizzle.toList.take a.width = List.range a.width →
      P.holds f (.alu ⟨.mov, [o]⟩) (some ⟨a.width, s.bits⟩))
    (hmov : ∀ g w, f.Grows i g → g.shape? w = some ⟨a.width, s.bits⟩ → f.Taken g v w →
      ∀ k < a.width, ∀ o, o.value = w → o.swizzle.toList.take 1 = [k] →
      P.holds g (.alu ⟨.mov, [o]⟩) (some ⟨1, s.bits⟩))
    (hP : ∀ g lane, f.Grows i g → ∀ k < a.width, g.shape? lane = some ⟨1, s.bits⟩ →
      f.Taken g v lane → P.holds g (channelStore a lane offset k) none) :
    (storeChannels a v offset).Yields P f i fun _ news g => s.bits = 32 →
      ∀ vars e slot x out, e.flatSlot a.base offset = some slot → e.values v = some x →
        (List.range a.width).foldlM (Machine.store slot a.component a.writeMask x) e.io.outputs =
          .ok out → f.Writes vars e news g out := by
  have hlane : ∀ k ∈ List.range a.width, k < 4 ∧ a.component + k < 256 := by
    intro k hk
    have := List.mem_range.mp hk
    omega
  unfold storeChannels
  rw [Build.materialize_whole v h4]
  refine .bind (Build.swizzle_yields hv hshape (by simpa using h1) (by simpa using h4)
    (fun k hk => (hlane k hk).1) (by simpa using hall)) ?_
  rintro w news g he ⟨hlive, hwide, hnew, hgives⟩
  rw [List.length_range] at hwide
  have hgrows := he.grows
  have hdef := he.tidy.linked.defined
  refine (storeEach_yields hlive hwide (he.grown.live hoff) hlane
    (fun h hh k hk => hmov h w (hgrows.trans hh) (hh.shape hwide)
      (hnew.trans (.inl rfl) hdef hlive.hasValue hgrows hh) k (List.mem_range.mp hk))
      fun h lane hh k hk hlane hl => hP h lane (hgrows.trans hh) k
      (List.mem_range.mp hk) hlane (hnew.trans hl hdef hlive.hasValue hgrows hh)).imp
    fun _ more h he' hrest => ?_
  intro hbits vars e slot x out hslot hx hout
  obtain ⟨y, ⟨e₁, he₁, ha₁, hio₁, hy, -⟩, hpick⟩ := hgives hbits vars e x hx
  refine he.writes_trans he' he₁ ha₁ hio₁ (hrest hbits vars e₁ slot y out ?_ hy ?_)
  · rw [flatSlot_congr ha₁ hoff.hasValue, hslot]
  · rw [hio₁, ← hout]
    refine Env.foldlM_store_congr (fun k hk => ⟨(hlane k hk).1, ?_⟩) _
    have hkw : k < a.width := List.mem_range.mp hk
    rw [hpick k (by simpa using hkw)]
    simp [hkw]

end ShaderSSA.Function
