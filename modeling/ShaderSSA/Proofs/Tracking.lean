import ShaderSSA.Proofs.Simulation

/-! Runs that differ in the names of values. A state tracks another when it holds, under a new
name, every value that matters; then a renamed body has the effect of the one it was made from. -/

namespace ShaderSSA

theorem zipIdx_mapM_congr {α β : Type} {l l' : List α} {g g' : α × Nat → Option β}
    (hlen : l'.length = l.length)
    (h : ∀ (s : Nat) a a', l[s]? = some a → l'[s]? = some a' → g' (a', s) = g (a, s)) :
    l'.zipIdx.mapM g' = l.zipIdx.mapM g := by
  have hk : ∀ n, (∀ (s : Nat) a a', l[s]? = some a → l'[s]? = some a' →
      g' (a', s + n) = g (a, s + n)) → (l'.zipIdx n).mapM g' = (l.zipIdx n).mapM g := by
    clear h
    induction l generalizing l' with
    | nil =>
      intro n _
      obtain rfl : l' = [] := by simpa using hlen
      rfl
    | cons a l ih =>
      intro n h
      cases l' with
      | nil => simp at hlen
      | cons a' l' =>
        have ha := h 0 a a' rfl rfl
        have hrest := ih (by simpa using hlen) (n + 1) fun s b b' hb hb' => by
          have hs := h (s + 1) b b' (by simpa using hb) (by simpa using hb')
          rwa [show s + 1 + n = s + (n + 1) by omega] at hs
        rw [Nat.zero_add] at ha
        simp only [List.zipIdx_cons, List.mapM_cons, ha, hrest]
  exact hk 0 h

/-- Every variable of the first is the same variable of the second. -/
def Variables.Extends (vars vars' : Variables) : Prop :=
  ∀ i x, vars.get? i = some x → vars'.get? i = some x

theorem Variables.Extends.refl (vars : Variables) : vars.Extends vars := fun _ _ h => h

theorem Variables.Extends.trans {vars vars' vars'' : Variables} (h : vars.Extends vars')
    (h' : vars'.Extends vars'') : vars.Extends vars'' :=
  fun i x hx => h' i x (h i x hx)

namespace Env

variable {ρ : ValueId → ValueId} {K : ValueId → Prop} {e e' : Env} {vars vars' : Variables}

/-- In the second state `w` stands for what `v` was in the first. -/
def Holds (e : Env) (v : ValueId) (e' : Env) (w : ValueId) : Prop :=
  e'.values w = e.values v ∧ e'.places w = e.places v

theorem alu_congr [FloatOps] {op : AluOp} {dest : Option Shape} {srcs srcs' : List Operand}
    (hlen : srcs'.length = srcs.length)
    (h : ∀ (s : Nat) o o', srcs[s]? = some o → srcs'[s]? = some o' →
      ∀ n, op.readWidth? dest s = some n → e'.operand n o' = e.operand n o) :
    e'.alu dest ⟨op, srcs'⟩ = e.alu dest ⟨op, srcs⟩ := by
  have hops : (srcs'.zipIdx.mapM fun p =>
      (op.readWidth? dest p.2).bind fun n => e'.operand n p.1) =
      srcs.zipIdx.mapM fun p => (op.readWidth? dest p.2).bind fun n => e.operand n p.1 := by
    refine zipIdx_mapM_congr hlen fun s o o' ho ho' => ?_
    cases hn : op.readWidth? dest s with
    | none => rfl
    | some n => exact h s o o' ho ho' n hn
  simp only [Env.alu, hops]

theorem Holds.flatSlot {v w : ValueId} (h : e.Holds v e' w) (base : Nat) :
    e'.flatSlot base w = e.flatSlot base v := by
  simp only [Env.flatSlot, h.1]

theorem Holds.derefSlot {v w : ValueId} (h : e.Holds v e' w) (hx : vars.Extends vars')
    {r : Variable × Nat} (hr : e.derefSlot vars v = some r) :
    e'.derefSlot vars' w = some r := by
  simp only [Env.derefSlot, Option.bind_eq_bind, Option.bind_eq_some_iff] at hr ⊢
  obtain ⟨p, hp, x, hget, n, hn, hr⟩ := hr
  exact ⟨p, by rw [h.2, hp], x, hx p.var x hget, n, hn, hr⟩

theorem access_congr {a : Access} {srcs' : List ValueId} (hx : vars.Extends vars')
    (hio : e'.io = e.io) (hs : ∀ (s : Nat) v, a.srcs[s]? = some v →
      ∃ w, srcs'[s]? = some w ∧ e.Holds v e' w) {r : Effect} (hr : e.access vars a = some r) :
    e'.access vars' { a with srcs := srcs' } = some r := by
  have hstored : ∀ slot first width mask x, e'.stored slot first width mask x =
      e.stored slot first width mask x := by
    intro slot first width mask x
    simp only [Env.stored, hio]
  simp only [Env.access, hio] at hr ⊢
  cases hkind : a.kind <;>
    simp only [hkind, Option.bind_eq_bind, Option.bind_eq_some_iff] at hr ⊢
  case loadInput =>
    obtain ⟨v, hv, slot, hslot, hr⟩ := hr
    obtain ⟨w, hw, hold⟩ := hs 0 v hv
    exact ⟨w, hw, slot, by rw [hold.flatSlot, hslot], hr⟩
  case loadUniform =>
    obtain ⟨v, hv, slot, hslot, hr⟩ := hr
    obtain ⟨w, hw, hold⟩ := hs 0 v hv
    exact ⟨w, hw, slot, by rw [hold.flatSlot, hslot], hr⟩
  case storeOutput =>
    obtain ⟨v, hv, x, hval, v', hv', slot, hslot, hr⟩ := hr
    obtain ⟨w, hw, hold⟩ := hs 0 v hv
    obtain ⟨w', hw', hold'⟩ := hs 1 v' hv'
    exact ⟨w, hw, x, by rw [hold.1, hval], w', hw', slot, by rw [hold'.flatSlot, hslot],
      by rw [hstored, hr]⟩
  case storeDeref =>
    obtain ⟨v, hv, p, hp, v', hv', x, hval, hr⟩ := hr
    obtain ⟨w, hw, hold⟩ := hs 0 v hv
    obtain ⟨w', hw', hold'⟩ := hs 1 v' hv'
    exact ⟨w, hw, p, hold.derefSlot hx hp, w', hw', x, by rw [hold'.1, hval], by rw [hstored, hr]⟩
  all_goals
    obtain ⟨v, hv, p, hp, hr⟩ := hr
    obtain ⟨w, hw, hold⟩ := hs 0 v hv
    exact ⟨w, hw, p, hold.derefSlot hx hp, hr⟩

theorem effect_mapSrcs [FloatOps] {g : Nat → ValueId → ValueId} {dest : Option Shape} {b : Body}
    (hx : vars.Extends vars') (hio : b.access?.isSome → e'.io = e.io)
    (hs : ∀ (s : Nat) v, b.srcs[s]? = some v → e.Holds v e' (g s v)) {r : Effect}
    (hr : e.effect vars dest b = some r) : e'.effect vars' dest (b.mapSrcs g) = some r := by
  cases b with
  | alu a =>
    have halu : e'.alu dest ⟨a.op, a.srcs.mapIdx fun s o => { o with value := g s o.value }⟩ =
        e.alu dest a := by
      refine alu_congr (by simp) fun s o o' ho ho' n _ => ?_
      obtain rfl : ({ o with value := g s o.value } : Operand) = o' := by simpa [ho] using ho'
      have hold := hs s o.value (by simp [Body.srcs, ho])
      simp only [Env.operand, hold.1]
    simp only [Body.mapSrcs, Env.effect, halu] at hr ⊢
    exact hr
  | access a =>
    refine access_congr hx (hio rfl) (fun s v hv => ⟨g s v, ?_, hs s v hv⟩) hr
    simp [hv]
  | deref d =>
    obtain ⟨step, mode, type⟩ := d
    cases step with
    | var v => exact hr
    | element parent index =>
      have hp := hs 0 parent rfl
      have hi := hs 1 index rfl
      simp only [Body.mapSrcs, Env.effect, Env.derefPlace, hp.2, hi.1] at hr ⊢
      exact hr
  | const lanes => exact hr
  | undef => exact hr

/-- What a body without access to the outside does depends on its sources alone. -/
theorem effect_congr [FloatOps] {dest : Option Shape} {b : Body} (hb : b.access? = none)
    (hs : ∀ v ∈ b.srcs, e.Holds v e' v) : e'.effect vars dest b = e.effect vars dest b := by
  have hone : ∀ {e e' : Env}, (∀ v ∈ b.srcs, e.Holds v e' v) → ∀ r,
      e.effect vars dest b = some r → e'.effect vars dest b = some r := by
    intro e e' hs r hr
    have hmap := effect_mapSrcs (g := fun _ v => v) (.refl vars) (by simp [hb])
      (fun s v hv => hs v (List.mem_of_getElem? hv)) hr
    rwa [b.mapSrcs_id] at hmap
  apply Option.ext
  intro r
  exact ⟨hone (fun v hv => ⟨(hs v hv).1.symm, (hs v hv).2.symm⟩) r, hone hs r⟩

/-- The second state holds what the first has for each value of `K`, under the name `ρ` gives. -/
structure Tracks (ρ : ValueId → ValueId) (K : ValueId → Prop) (e e' : Env) : Prop where
  values : ∀ v, K v → e'.values (ρ v) = e.values v
  places : ∀ v, K v → e'.places (ρ v) = e.places v
  io : e'.io = e.io

theorem Tracks.start (io : IoState) : Tracks ρ K (.start io) (.start io) :=
  ⟨fun _ _ => rfl, fun _ _ => rfl, rfl⟩

theorem Tracks.holds (h : Tracks ρ K e e') {v : ValueId} (hv : K v) : e.Holds v e' (ρ v) :=
  ⟨h.values v hv, h.places v hv⟩

theorem Tracks.apply (h : Tracks ρ K e e') {dest : Option ValueId} (r : Effect)
    (hd : ∀ d, dest = some d → ∀ v, K v → (ρ v = d ↔ v = d)) :
    Tracks ρ K (e.apply dest r) (e'.apply dest r) := by
  cases r with
  | outputs t => exact ⟨h.values, h.places, by simp only [Env.apply, h.io]⟩
  | value x =>
    cases dest with
    | none => exact h
    | some d =>
      refine ⟨fun v hv => ?_, h.places, h.io⟩
      have hiff := hd d rfl v hv
      simp only [Env.apply, Option.elim, Env.define, h.values v hv, hiff]
  | place p =>
    cases dest with
    | none => exact h
    | some d =>
      refine ⟨h.values, fun v hv => ?_, h.io⟩
      have hiff := hd d rfl v hv
      simp only [Env.apply, Option.elim, Env.definePlace, h.places v hv, hiff]

/-- The two states hold the same for every value of `K`. -/
def Agrees (K : ValueId → Prop) (e e' : Env) : Prop :=
  ∀ v, K v → e'.values v = e.values v ∧ e'.places v = e.places v

theorem Agrees.refl (K : ValueId → Prop) (e : Env) : e.Agrees K e := fun _ _ => ⟨rfl, rfl⟩

theorem Agrees.trans {K' : ValueId → Prop} {e'' : Env} (h : e.Agrees K e') (h' : e'.Agrees K' e'')
    (hk : ∀ v, K v → K' v) : e.Agrees K e'' := by
  intro v hv
  have h₁ := h v hv
  have h₂ := h' v (hk v hv)
  exact ⟨h₂.1.trans h₁.1, h₂.2.trans h₁.2⟩

theorem Tracks.apply_left {d : Option ValueId} {r : Effect} (h : e.Tracks ρ K e')
    (hr : ∀ t, r ≠ .outputs t) (hd : ∀ v, d = some v → ¬ K v) : (e.apply d r).Tracks ρ K e' := by
  cases d with
  | none =>
    cases r with
    | outputs t => exact absurd rfl (hr t)
    | _ => exact h
  | some v =>
    have hne : ∀ w, K w → w ≠ v := by
      rintro w hw rfl
      exact hd w rfl hw
    cases r with
    | outputs t => exact absurd rfl (hr t)
    | value x =>
      refine ⟨fun w hw => ?_, h.places, h.io⟩
      simp [Env.apply, Env.define, hne w hw, h.values w hw]
    | place p =>
      refine ⟨h.values, fun w hw => ?_, h.io⟩
      simp [Env.apply, Env.definePlace, hne w hw, h.places w hw]

theorem Agrees.define {d : ValueId} (hd : ¬ K d) (x : Lanes) : e.Agrees K (e.define d x) := by
  intro v hv
  have hne : v ≠ d := fun h => hd (h ▸ hv)
  exact ⟨by simp [Env.define, hne], rfl⟩

theorem Agrees.definePlace {d : ValueId} (hd : ¬ K d) (p : Place) :
    e.Agrees K (e.definePlace d p) := by
  intro v hv
  have hne : v ≠ d := fun h => hd (h ▸ hv)
  exact ⟨rfl, by simp [Env.definePlace, hne]⟩

end Env

namespace Function

variable {f f' : Function} {ρ : ValueId → ValueId} {K : ValueId → Prop} {vars vars' : Variables}

/-- An instruction that is renamed and nothing else takes tracked states to tracked states. -/
theorem step?_tracks [FloatOps] {e e' e₁ : Env} {i : InstrId} (h : e.Tracks ρ K e')
    (hx : vars.Extends vars')
    (hbody : f'.body? i = (f.body? i).map fun b => b.mapSrcs fun _ => ρ)
    (hdest : f'.dest? i = f.dest? i) (hshape : f'.destShape? i = f.destShape? i)
    (hk : ∀ vs, f.srcs? i = some vs → ∀ v ∈ vs, K v)
    (hd : ∀ d, f.dest? i = some d → ∀ v, K v → (ρ v = d ↔ v = d))
    (hs : f.step? vars i e = some e₁) :
    ∃ e₁', f'.step? vars' i e' = some e₁' ∧ e₁.Tracks ρ K e₁' := by
  simp only [step?, Option.bind_eq_some_iff, Option.map_eq_some_iff] at hs
  obtain ⟨b, hb, r, hr, rfl⟩ := hs
  have hsrcs : f.srcs? i = some b.srcs := by
    obtain ⟨x, hx, rfl⟩ := Option.map_eq_some_iff.mp hb
    simp [srcs?, hx]
  refine ⟨e'.apply (f.dest? i) r, ?_, h.apply r hd⟩
  have heff := Env.effect_mapSrcs hx (fun _ => h.io)
    (fun s v hv => h.holds (hk b.srcs hsrcs v (List.mem_of_getElem? hv))) hr
  simp only [step?, hbody, hb, hdest, hshape, Option.map_some, Option.bind_some, heff]

end Function

end ShaderSSA
