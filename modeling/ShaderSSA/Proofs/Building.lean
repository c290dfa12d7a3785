import ShaderSSA.Proofs.Growth
import ShaderSSA.Proofs.LaneAlgebra
import ShaderSSA.Proofs.Substitution

/-! The builders that the passes use: each succeeds on sound arguments, and its result holds what
its name says. -/

namespace ShaderSSA

/-- A new value with the effect of the given body. -/
structure Function.Defines [FloatOps] (f : Function) (body : Body) (shape : Shape) (v : ValueId)
    (news : List InstrId) (g : Function) : Prop where
  exec : ∀ vars e, g.exec? vars news e =
    (e.effect vars (some shape) body).map (e.apply (some v))
  fresh : f.hasValue v = false
  shape : g.shape? v = some shape
  live : g.Live v
  body : ∃ n, g.source? v = some n ∧ g.body? n = some body

theorem Function.Defines.place [FloatOps] {f g : Function} {body : Body} {shape : Shape}
    {v : ValueId} {news : List InstrId} (h : f.Defines body shape v news g) :
    g.isPlace v = body.deref?.isSome := by
  obtain ⟨n, hs, hb⟩ := h.body
  exact Function.isPlace_eq hs hb

/-- Doing `news` gives `x` to `v` and leaves everything that was known as it was. -/
def Function.Gives [FloatOps] (f : Function) (vars : Variables) (e : Env) (news : List InstrId)
    (g : Function) (v : ValueId) (x : Lanes) : Prop :=
  ∃ e₁, g.exec? vars news e = some e₁ ∧ e.Agrees (fun w => f.hasValue w) e₁ ∧ e₁.io = e.io ∧
    e₁.values v = some x ∧ e₁.places v = e.places v

theorem Function.Defines.gives [FloatOps] {f g : Function} {body : Body} {shape : Shape}
    {v : ValueId} {news : List InstrId} (h : f.Defines body shape v news g) {vars : Variables}
    {e : Env} {x : Lanes} (hx : e.effect vars (some shape) body = some (.value x)) :
    f.Gives vars e news g v x := by
  refine ⟨e.define v x, ?_, Env.Agrees.define (by simp [h.fresh]) x, rfl, by simp [Env.define],
    rfl⟩
  rw [h.exec, hx]
  rfl

/-- Doing `news` gives the place `p` to `v` and leaves everything that was known as it was. -/
def Function.Points [FloatOps] (f : Function) (vars : Variables) (e : Env) (news : List InstrId)
    (g : Function) (v : ValueId) (p : Place) : Prop :=
  ∃ e₁, g.exec? vars news e = some e₁ ∧ e.Agrees (fun w => f.hasValue w) e₁ ∧ e₁.io = e.io ∧
    e₁.places v = some p

theorem Function.Defines.points [FloatOps] {f g : Function} {body : Body} {shape : Shape}
    {v : ValueId} {news : List InstrId} (h : f.Defines body shape v news g) {vars : Variables}
    {e : Env} {p : Place} (hp : e.effect vars (some shape) body = some (.place p)) :
    f.Points vars e news g v p := by
  refine ⟨e.definePlace v p, ?_, Env.Agrees.definePlace (by simp [h.fresh]) p, rfl,
    by simp [Env.definePlace]⟩
  rw [h.exec, hp]
  rfl

/-- Doing `news` leaves the given outputs and everything that was known as it was. -/
def Function.Writes [FloatOps] (f : Function) (vars : Variables) (e : Env) (news : List InstrId)
    (g : Function) (out : Channels) : Prop :=
  ∃ e₁, g.exec? vars news e = some e₁ ∧ e.Agrees (fun w => f.hasValue w) e₁ ∧
    e₁.io = { e.io with outputs := out }

theorem Function.writes_of_effect [FloatOps] {f g : Function} {vars : Variables} {e : Env}
    {news : List InstrId} {out : Channels} {body : Body}
    (hexec : g.exec? vars news e = (e.effect vars none body).map (e.apply none))
    (h : e.effect vars none body = some (.outputs out)) : f.Writes vars e news g out :=
  ⟨{ e with io := { e.io with outputs := out } }, by rw [hexec, h]; rfl, fun _ _ => ⟨rfl, rfl⟩, rfl⟩

section Sequence

variable {f g k : Function} {i : InstrId} {news more : List InstrId} {P : Trait}
  {vars : Variables} {e e₁ : Env}

theorem Function.Emits.exec_append [FloatOps] (h : f.Emits P i news g)
    (h' : g.Emits P i more k) (he : g.exec? vars news e = some e₁) :
    k.exec? vars (news ++ more) e = k.exec? vars more e₁ := by
  have hold : ∀ j ∈ news, ∃ x, g.instrs.get? j = some x := by
    intro j hj
    obtain ⟨-, b, hb⟩ := h.grown.fresh j hj
    obtain ⟨x, hx, -⟩ := Function.home?_eq_some.mp hb
    exact ⟨x, hx⟩
  rw [Function.exec?_append, h'.grown.exec h.tidy.linked.defined hold, he, Option.bind_some]

theorem Function.Emits.agrees_trans {e₂ : Env} (h : f.Emits P i news g)
    (ha : e.Agrees (fun w => f.hasValue w) e₁) (ha' : e₁.Agrees (fun w => g.hasValue w) e₂) :
    e.Agrees (fun w => f.hasValue w) e₂ :=
  ha.trans ha' fun _ hv => h.grown.hasValue hv

variable [FloatOps]

theorem Function.Emits.untouched (h : f.Emits P i news g) (he : g.exec? vars news e = some e₁)
    {v : ValueId} (hv : g.hasValue v = false) :
    e₁.values v = e.values v ∧ e₁.places v = e.places v := by
  refine Function.exec?_untouched he fun n _ hd => ?_
  have hs := (h.tidy.linked.defined.iff n v).mp hd
  obtain ⟨x, hx, -⟩ := Option.map_eq_some_iff.mp hs
  have hk : g.hasValue v := Function.hasValue_iff.mpr ⟨x, hx⟩
  simp [hk] at hv

theorem Function.Emits.writes_trans (h : f.Emits P i news g) (h' : g.Emits P i more k)
    (he : g.exec? vars news e = some e₁) (ha : e.Agrees (fun w => f.hasValue w) e₁)
    {out out₁ : Channels} (hio : e₁.io = { e.io with outputs := out₁ })
    (hx : g.Writes vars e₁ more k out) : f.Writes vars e (news ++ more) k out := by
  obtain ⟨e₂, he₂, ha₂, hio₂⟩ := hx
  exact ⟨e₂, (h.exec_append h' he).trans he₂, h.agrees_trans ha ha₂, by rw [hio₂, hio]⟩

theorem Function.Emits.gives_trans (h : f.Emits P i news g) (h' : g.Emits P i more k)
    (he : g.exec? vars news e = some e₁) (ha : e.Agrees (fun w => f.hasValue w) e₁)
    (hio : e₁.io = e.io) {v : ValueId} {x : Lanes} (hv : g.hasValue v = false)
    (hx : g.Gives vars e₁ more k v x) : f.Gives vars e (news ++ more) k v x := by
  obtain ⟨e₂, he₂, ha₂, hio₂, hval, hplace⟩ := hx
  refine ⟨e₂, (h.exec_append h' he).trans he₂, h.agrees_trans ha ha₂, hio₂.trans hio, hval, ?_⟩
  rw [hplace, (h.untouched he hv).2]

theorem Function.Emits.points_trans (h : f.Emits P i news g) (h' : g.Emits P i more k)
    (he : g.exec? vars news e = some e₁) (ha : e.Agrees (fun w => f.hasValue w) e₁)
    (hio : e₁.io = e.io) {v : ValueId} {p : Place} (hp : g.Points vars e₁ more k v p) :
    f.Points vars e (news ++ more) k v p := by
  obtain ⟨e₂, he₂, ha₂, hio₂, hplace⟩ := hp
  exact ⟨e₂, (h.exec_append h' he).trans he₂, h.agrees_trans ha ha₂, hio₂.trans hio, hplace⟩

end Sequence

namespace Build

variable {P : Trait} {f : Function} {c : Cursor} {i : InstrId} {lax : Prop}
  {E : Conduct Builder.func}

theorem insert_run {g : Function} {n : InstrId} {body : Body} {dest : Option Shape}
    (h : f.insert c body dest = .ok (n, g)) :
    (insert body dest).run ⟨f, c⟩ = .ok (n, ⟨g, .after n⟩) := by
  simp [insert, h, StateT.run, bind, StateT.bind, get, getThe, MonadStateOf.get, StateT.get,
    set, StateT.set, Except.bind, pure, StateT.pure, Except.pure, liftM, monadLift,
    MonadLift.monadLift, StateT.lift]

theorem insertValue_run {g : Function} {n : InstrId} {body : Body} {shape : Shape} {c' : Cursor}
    {v : ValueId} (h : (insert body (some shape)).run ⟨f, c⟩ = .ok (n, ⟨g, c'⟩))
    (hd : g.dest? n = some v) : (insertValue body shape).run ⟨f, c⟩ = .ok (v, ⟨g, c'⟩) := by
  obtain ⟨x, hx, hxd⟩ := Option.bind_eq_some_iff.mp hd
  have hinstr : g.instr n = .ok x := Function.instr_eq_ok.mpr hx
  simp only [insertValue, StateT.run_bind, h, ok_bind]
  simp [func, hinstr, hxd, Checked.orElse, StateT.run, bind, StateT.bind, get, getThe,
    MonadStateOf.get, StateT.get, Except.bind, pure, StateT.pure, Except.pure, liftM, monadLift,
    MonadLift.monadLift, StateT.lift]

theorem insert_yields [FloatOps] {body : Body} {dest : Option Shape}
    (hsrc : ∀ v ∈ body.srcs, f.Live v) (hlen : body.srcs.length ≤ 256)
    (hw : ∀ s, dest = some s → 1 ≤ s.width ∧ s.width ≤ 4) (hP : P.holds f body dest) :
    (insert body dest).Yields P f i fun n news g => news = [n] ∧ g.body? n = some body ∧
      g.dest? n = (dest.map fun _ => ⟨f.values.size⟩) ∧ g.shape? ⟨f.values.size⟩ = dest ∧
      (∀ s, dest = some s → g.Live ⟨f.values.size⟩) ∧ ∀ vars e, g.exec? vars news e =
        (e.effect vars dest body).map (e.apply (dest.map fun _ => ⟨f.values.size⟩)) := by
  rintro ⟨_, c⟩ rfl ⟨hf, hs⟩
  obtain ⟨n, g, hins, hg, hst, ht, hbody, hdest, hshape, hlive⟩ :=
    hs.insert hf (fun v hv => (hsrc v hv).hasValue) hlen hw
  have hdshape : g.destShape? n = dest := by
    simp only [Function.destShape?, hdest]
    cases dest with
    | none => rfl
    | some s => exact hshape
  refine .of_eq (insert_run hins) ⟨⟨ht, hst⟩, [n],
    ⟨hg, hg.not_mem hs hf.linked.placed, ht, ?_⟩, rfl, hbody, hdest, hshape, hlive, ?_⟩
  · intro pre m post hm
    obtain ⟨rfl, rfl, -⟩ : pre = [] ∧ m = n ∧ post = [] := by
      cases pre with
      | nil => simpa [eq_comm] using hm
      | cons _ _ => simp at hm
    obtain ⟨-, b, hb⟩ := hg.fresh m (by simp)
    exact ⟨b, body, hb, hbody, by rw [hdshape]; exact P.grows hf hg hsrc hP,
      fun v hv => .inl (hsrc v hv)⟩
  · intro vars e
    simp [Function.exec?, Function.step?, hbody, hdest, hdshape]

theorem insertValue_yields [FloatOps] {body : Body} {shape : Shape}
    (hsrc : ∀ v ∈ body.srcs, f.Live v) (hlen : body.srcs.length ≤ 256)
    (hw : 1 ≤ shape.width ∧ shape.width ≤ 4) (hP : P.holds f body (some shape)) :
    (insertValue body shape).Yields P f i (f.Defines body shape) := by
  refine (insert_yields hsrc hlen (by rintro s ⟨rfl⟩; exact hw) hP).bind ?_
  rintro n news g he ⟨-, hbody, hdest, hshape, hlive, hexec⟩
  obtain ⟨x, hx, hxd⟩ := Option.bind_eq_some_iff.mp hdest
  refine .func (.ok (Function.instr_eq_ok.mpr hx) ?_)
  rw [hxd]
  refine .pure ⟨?_, ?_, hshape, hlive shape rfl, ?_⟩
  · simpa using hexec
  · simp [Function.hasValue, Arena.get?_size]
  · exact ⟨n, (he.tidy.linked.defined.iff n _).mp hdest, hbody⟩

theorem shape_run {v : ValueId} {s : Shape} (h : f.shape? v = some s) :
    (shape v).run ⟨f, c⟩ = .ok (s, ⟨f, c⟩) := by
  obtain ⟨x, hx, rfl⟩ := Option.map_eq_some_iff.mp h
  have hval : f.value v = .ok x := Function.value_eq_ok.mpr hx
  simp [shape, func, hval, StateT.run, bind, StateT.bind, get, getThe, MonadStateOf.get,
    StateT.get, Except.bind, pure, StateT.pure, Except.pure, liftM, monadLift,
    MonadLift.monadLift, StateT.lift]

theorem shape_obeys {β : Type} {v : ValueId} {s : Shape} {k : Shape → Build β}
    {R : β → List InstrId → Function → Prop} (hs : f.shape? v = some s)
    (h : Obeys lax E (k s) f R) : Obeys lax E (shape v >>= k) f R :=
  .read (by rintro ⟨_, c⟩ rfl; exact shape_run hs) h

theorem aluSwizzled_yields [FloatOps] {op : AluOp} {srcs : List Operand} {width bits : Nat}
    (hsrc : ∀ o ∈ srcs, f.Live o.value) (hlen : srcs.length ≤ 256)
    (hlast : ∃ o s, srcs.getLast? = some o ∧ f.shape? o.value = some s ∧ s.bits = bits)
    (hw : 1 ≤ width ∧ width ≤ 4) (hP : P.holds f (.alu ⟨op, srcs⟩) (some ⟨width, bits⟩)) :
    (aluSwizzled op srcs width).Yields P f i (f.Defines (.alu ⟨op, srcs⟩) ⟨width, bits⟩) := by
  obtain ⟨o, s, ho, hos, rfl⟩ := hlast
  have hbody : ∀ v ∈ (Body.alu ⟨op, srcs⟩).srcs, f.Live v := by
    intro v hv
    obtain ⟨o, ho, rfl⟩ := List.mem_map.mp hv
    exact hsrc o ho
  unfold aluSwizzled
  rw [ho]
  exact shape_obeys hos (insertValue_yields hbody (by simpa [Body.srcs] using hlen) hw hP)

theorem mov_yields [FloatOps] {o : Operand} {width : Nat} {s : Shape} (hsrc : f.Live o.value)
    (hshape : f.shape? o.value = some s) (hw : 1 ≤ width ∧ width ≤ 4)
    (hP : P.holds f (.alu ⟨.mov, [o]⟩) (some ⟨width, s.bits⟩)) :
    (mov o width).Yields P f i (f.Defines (.alu ⟨.mov, [o]⟩) ⟨width, s.bits⟩) :=
  aluSwizzled_yields (by simpa using hsrc) (by simp) ⟨o, s, rfl, hshape, rfl⟩ hw hP

theorem vec_yields [FloatOps] {vs : List ValueId} {bits : Nat} (h2 : 2 ≤ vs.length)
    (h4 : vs.length ≤ 4) (hlive : ∀ v ∈ vs, f.Live v)
    (hbits : ∀ v ∈ vs, ∃ s, f.shape? v = some s ∧ s.bits = bits)
    (hP : ∀ op, AluOp.construct? vs.length = some op →
      P.holds f (.alu ⟨op, vs.map (.channel · 0)⟩) (some ⟨vs.length, bits⟩)) :
    (vec vs).Yields P f i fun v news g => f.hasValue v = false ∧ g.Live v ∧
      g.shape? v = some ⟨vs.length, bits⟩ ∧ g.isPlace v = false ∧ (bits = 32 →
        ∀ vars e (xs : List Lanes), xs.length = vs.length →
          (∀ (s : Nat) w x, vs[s]? = some w → xs[s]? = some x → e.values w = some x) →
          f.Gives vars e news g v (.ofList (xs.map Lanes.first))) := by
  obtain ⟨op, hop⟩ : ∃ op, AluOp.construct? vs.length = some op := by
    interval_cases hl : vs.length <;> exact ⟨_, rfl⟩
  have hsrc : ∀ o ∈ vs.map (Operand.channel · 0), f.Live o.value := by
    intro o ho
    obtain ⟨v, hv, rfl⟩ := List.mem_map.mp ho
    exact hlive v hv
  have hlast : ∃ o s, (vs.map (Operand.channel · 0)).getLast? = some o ∧
      f.shape? o.value = some s ∧ s.bits = bits := by
    have hne : vs ≠ [] := by
      rintro rfl
      simp at h2
    obtain ⟨s, hs, hb⟩ := hbits _ (List.getLast_mem hne)
    exact ⟨.channel (vs.getLast hne) 0, s, by simp [List.getLast?_eq_getLast_of_ne_nil hne], hs, hb⟩
  have hw : 1 ≤ vs.length ∧ vs.length ≤ 4 := ⟨by omega, h4⟩
  have hlen : (vs.map (Operand.channel · 0)).length ≤ 256 := by
    rw [List.length_map]
    omega
  unfold vec
  split
  · simp at h2
  · refine .ok (Checked.orElse_eq_ok.mpr hop) ?_
    refine (aluSwizzled_yields hsrc hlen hlast hw (hP op hop)).imp fun v news g _ hd => ?_
    refine ⟨hd.fresh, hd.live, hd.shape, hd.place, ?_⟩
    rintro rfl vars e xs hlen hx
    exact hd.gives (Env.effect_vec hop hlen hx)

theorem swizzle_yields [FloatOps] {v : ValueId} {lanes : List Nat} {s : Shape} (hlive : f.Live v)
    (hshape : f.shape? v = some s) (h1 : 1 ≤ lanes.length) (h4 : lanes.length ≤ 4)
    (hl : ∀ k ∈ lanes, k < 4)
    (hP : ∀ o, o.value = v → o.swizzle.toList.take lanes.length = lanes →
      P.holds f (.alu ⟨.mov, [o]⟩) (some ⟨lanes.length, s.bits⟩)) :
    (swizzle v lanes).Yields P f i fun w news g => g.Live w ∧
      g.shape? w = some ⟨lanes.length, s.bits⟩ ∧
      f.Taken g v w ∧ (s.bits = 32 →
        ∀ vars e x, e.values v = some x → ∃ y, f.Gives vars e news g w y ∧
          ∀ k < lanes.length, y.pick k = x.pick (lanes.getD k 0)) := by
  refine shape_obeys hshape ?_
  by_cases hid : lanes = List.range s.width
  · rw [if_pos hid]
    refine .pure ⟨hlive, by simp [hid, hshape], .inl rfl, ?_⟩
    intro _ vars e x hx
    refine ⟨x, ⟨e, rfl, .refl _ e, rfl, hx, rfl⟩, fun k hk => ?_⟩
    have hkw : k < s.width := by simpa [hid] using hk
    simp [hid, hkw]
  · rw [if_neg hid]
    obtain ⟨o, ho, rfl, htake⟩ := Operand.select_eq_ok (v := v) h1 h4
    refine .ok ho ((mov_yields hlive hshape ⟨h1, h4⟩ (hP o rfl htake)).imp
      fun w news g _ hd => ⟨hd.live, hd.shape, .inr ⟨hd.fresh, hd.place⟩, ?_⟩)
    intro hbits vars e x hx
    rw [hbits] at hd
    have heff : e.effect vars _ _ = _ := Env.effect_mov hx h4 (by simpa [htake] using hl)
    rw [htake] at heff
    refine ⟨_, hd.gives heff, fun k hk => ?_⟩
    have hk4 : k < 4 := by omega
    simp [Lanes.pick_ofList, hk4, hk]

theorem channel_yields [FloatOps] {v : ValueId} {k : Nat} {s : Shape} (hlive : f.Live v)
    (hshape : f.shape? v = some s) (hk : k < 4)
    (hP : ∀ o, o.value = v → o.swizzle.toList.take 1 = [k] →
      P.holds f (.alu ⟨.mov, [o]⟩) (some ⟨1, s.bits⟩)) :
    (channel v k).Yields P f i fun w news g => g.Live w ∧ g.shape? w = some ⟨1, s.bits⟩ ∧
      f.Taken g v w ∧ (s.bits = 32 →
        ∀ vars e x, e.values v = some x →
          ∃ y, f.Gives vars e news g w y ∧ y.pick 0 = x.pick k) := by
  have hlane : ∀ j ∈ [k], j < 4 := by simpa using hk
  refine (swizzle_yields hlive hshape (by simp) (by simp) hlane hP).imp fun w news g _ hq => ?_
  obtain ⟨hlive, hshape, hnew, hgives⟩ := hq
  refine ⟨hlive, hshape, hnew, fun hbits vars e x hx => ?_⟩
  obtain ⟨y, hy, hpick⟩ := hgives hbits vars e x hx
  exact ⟨y, hy, hpick 0 (by simp)⟩

theorem materialize_whole (v : ValueId) {n : Nat} (hn : n ≤ 4) :
    materialize (.whole v) n = swizzle v (List.range n) := by
  have htake : (Operand.whole v).swizzle.toList.take n = List.range n := by
    interval_cases n <;> rfl
  have hlanes : (Operand.whole v).swizzle.lanes n = .ok (List.range n) :=
    Swizzle.lanes_eq_ok.mpr ⟨hn, htake⟩
  have hval : (Operand.whole v).value = v := rfl
  simp only [materialize, swizzle, htake, hlanes, hval, and_true, List.length_range]
  congr 1
  funext s
  by_cases hw : n = s.width
  · simp [hw]
  · have hne : List.range n ≠ List.range s.width := by
      intro he
      exact hw (by simpa using congrArg List.length he)
    simp only [hw, hne, if_false]
    rfl

end Build

end ShaderSSA
