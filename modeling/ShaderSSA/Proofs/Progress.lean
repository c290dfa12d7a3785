import ShaderSSA.Proofs.Tree
import ShaderSSA.Proofs.Verified

/-! Runs that cannot get stuck. A definition on a dominating point has been done and its value or
its place recorded, so a run of a function in which every operand is of the kind its position asks
for ends well, at the step limit or by a fault, and never for want of an operand. -/

namespace ShaderSSA

namespace Body

/-- Everything but a store has a result. -/
def hasResult : Body → Bool
  | access a => a.kind.hasDest
  | _ => true

end Body

namespace Function

/-- Results where there is something to compute, arithmetic on 32 bits, and places exactly where
places are asked for. -/
structure WellSorted (f : Function) : Prop where
  result : ∀ i b body, f.home? i = some b → f.body? i = some body →
    (f.dest? i).isSome = body.hasResult
  bits : ∀ i b a s, f.home? i = some b → f.body? i = some (.alu a) → f.destShape? i = some s →
    s.bits = 32
  operand : ∀ i b body slot v, f.home? i = some b → f.body? i = some body →
    body.srcs[slot]? = some v → f.isPlace v = body.isPlaceSlot slot
  condition : ∀ b v, f.condition? b = some v → f.isPlace v = false

instance (f : Function) : Decidable f.WellSorted :=
  decidable_of_iff ((∀ i ∈ f.instrs.ids, (f.home? i).isSome → ∀ body ∈ f.body? i,
      (f.dest? i).isSome = body.hasResult ∧
      (body.alu?.isSome → ∀ s ∈ f.destShape? i, s.bits = 32) ∧
      ∀ p ∈ body.srcs.zipIdx, f.isPlace p.1 = body.isPlaceSlot p.2) ∧
    ∀ b ∈ f.blocks.ids, ∀ v ∈ f.condition? b, f.isPlace v = false) <| by
    rw [f.forall_body_iff fun i body => (f.dest? i).isSome = body.hasResult ∧
      (body.alu?.isSome → ∀ s ∈ f.destShape? i, s.bits = 32) ∧
      ∀ p ∈ body.srcs.zipIdx, f.isPlace p.1 = body.isPlaceSlot p.2]
    constructor
    · rintro ⟨hall, hcond⟩
      refine ⟨fun i b body hi hbody => (hall i b body hi hbody).1,
        fun i b a s hi hbody hs => (hall i b _ hi hbody).2.1 rfl s hs,
        fun i b body slot v hi hbody hv => (hall i b body hi hbody).2.2 (v, slot)
          (List.mem_zipIdx_iff_getElem?.mpr hv), fun b v hv => hcond b ?_ v hv⟩
      obtain ⟨x, hx, -⟩ := Option.bind_eq_some_iff.mp (condition?_eq f b ▸ hv)
      exact (Arena.mem_ids _ _).mpr (Arena.get?_eq_some_lt hx)
    · intro h
      refine ⟨fun i b body hi hbody => ⟨h.result i b body hi hbody, fun ha s hs => ?_, fun p hp =>
        h.operand i b body p.2 p.1 hi hbody (List.mem_zipIdx_iff_getElem?.mp hp)⟩,
        fun b _ v hv => h.condition b v hv⟩
      cases body with
      | alu a => exact h.bits i b a s hi hbody hs
      | _ => simp [Body.alu?] at ha

variable {f : Function} {vars : Variables} {io : IoState} {b : BlockId} {d : InstrId}
  {done rest : List InstrId} {e : Env} {v : ValueId} {body : Body}

theorem effect_kind [FloatOps] {s : Option Shape} {r : Effect} (h : e.effect vars s body = some r)
    (hr : body.hasResult = true) :
    if body.deref?.isSome then ∃ p, r = .place p else ∃ x, r = .value x := by
  cases body with
  | alu a =>
    obtain ⟨x, -, rfl⟩ := Option.map_eq_some_iff.mp h
    exact ⟨x, rfl⟩
  | deref q =>
    obtain ⟨p, -, rfl⟩ := Option.map_eq_some_iff.mp h
    exact ⟨p, rfl⟩
  | const lanes =>
    simp only [Env.effect] at h
    split at h
    · exact ⟨_, (Option.some.inj h).symm⟩
    · cases h
  | undef => exact ⟨_, (Option.some.inj h).symm⟩
  | access a =>
    have hload : ∀ table slot first width, Env.loaded table slot first width = some r →
        ∃ x, r = .value x := by
      intro table slot first width hl
      obtain ⟨x, -, rfl⟩ := Option.map_eq_some_iff.mp hl
      exact ⟨x, rfl⟩
    simp only [Body.deref?, Option.isSome_none, Bool.false_eq_true, if_false]
    cases hk : a.kind <;> simp only [Body.hasResult, hk] at hr <;>
      simp only [Env.effect, Env.access, hk, Option.bind_eq_bind, Option.bind_eq_some_iff] at h
    case storeOutput => cases hr
    case storeDeref => cases hr
    all_goals
      obtain ⟨_, _, _, _, h⟩ := h
      exact hload _ _ _ _ h

theorem isSome_apply (dest : Option ValueId) (r : Effect) :
    ((e.values v).isSome → ((e.apply dest r).values v).isSome) ∧
      ((e.places v).isSome → ((e.apply dest r).places v).isSome) := by
  cases dest with
  | none => cases r <;> exact ⟨id, id⟩
  | some w =>
    cases r <;> by_cases hvw : v = w <;> simp [Env.apply, Env.define, Env.definePlace, hvw]

variable [FloatOps]

/-- A definition that has been done has left its value or its place. -/
theorem Arrives.recorded (hp : f.Placed) (hw : f.WellSorted) (ha : Arrives f vars io b done e)
    (hd : f.Before d b done) (hbody : f.body? d = some body) (hv : f.dest? d = some v) :
    if body.deref?.isSome then (e.places v).isSome else (e.values v).isSome := by
  induction ha generalizing d body v with
  | start =>
    rcases hd with hd | ⟨c, -, hc⟩
    · simp at hd
    · exact absurd hc Blocks.not_strictlyDominates_entry
  | @goes b e t c _ ht hn ih =>
    refine ih ?_ hbody hv
    rcases hd with hd | ⟨k, hk, hkc⟩
    · simp at hd
    · have hkb := hkc.dominates_pred (mem_successors_of_next ht hn)
      by_cases hne : k = b
      · exact .inl (hp.mem_iff.mpr (hne ▸ hk))
      · exact .inr ⟨k, hk, hne, hkb⟩
  | @step b done i rest e e' ha hb hi ih =>
    simp only [step?, Option.bind_eq_some_iff, Option.map_eq_some_iff] at hi
    obtain ⟨bodyI, hbodyI, r, heff, rfl⟩ := hi
    have hcase : f.Before d b done ∨ d = i := by
      rcases hd with hd | hd
      · rcases List.mem_append.mp hd with hd | hd
        · exact .inl (.inl hd)
        · exact .inr (by simpa using hd)
      · exact .inl (.inr hd)
    rcases hcase with hbefore | rfl
    · have hold := ih hbefore hbody hv
      obtain ⟨hvalue, hplace⟩ := isSome_apply (f.dest? i) r (e := e) (v := v)
      split at hold
      · exact (if_pos ‹_›).mpr (hplace hold)
      · exact (if_neg ‹_›).mpr (hvalue hold)
    · obtain rfl : bodyI = body := by simpa [hbodyI] using hbody
      have hhome : f.home? d = some b := hp.mem_iff.mp (by simp [hb])
      have hresult : bodyI.hasResult = true := by
        rw [← hw.result d b bodyI hhome hbody, hv]
        rfl
      have hkind := effect_kind heff hresult
      split at hkind
      · rename_i hderef
        obtain ⟨p, rfl⟩ := hkind
        simp [Env.apply, Env.definePlace, hv, hderef]
      · rename_i hderef
        obtain ⟨x, rfl⟩ := hkind
        simp [Env.apply, Env.define, hv, hderef]

theorem Arrives.recorded_source (hp : f.Placed) (hdef : f.Defined) (hw : f.WellSorted)
    (ha : Arrives f vars io b done e) (hd : f.source? v = some d) (hbefore : f.Before d b done) :
    if f.isPlace v then (e.places v).isSome else (e.values v).isSome := by
  have hdest := (hdef.iff d v).mpr hd
  obtain ⟨x, hx, -⟩ := Option.bind_eq_some_iff.mp hdest
  have hbody : f.body? d = some x.body := by simp [body?, hx]
  have hplace : f.isPlace v = x.body.deref?.isSome := by simp [isPlace, hd, hbody]
  rw [hplace]
  exact ha.recorded hp hw hbefore hbody hdest

/-- What an instruction reads where a run has come to it is recorded with the values, or with the
places in a slot for a place. -/
theorem Arrives.operand (hp : f.Placed) (hdef : f.Defined) (hdom : f.DominanceRespecting)
    (hw : f.WellSorted) (ha : Arrives f vars io b done e) {i : InstrId}
    (hb : f.blockInstrs b = done ++ i :: rest) (hbody : f.body? i = some body) {s : Nat}
    (hv : body.srcs[s]? = some v) :
    if body.isPlaceSlot s then (e.places v).isSome else (e.values v).isSome := by
  have hi : f.home? i = some b := hp.mem_iff.mp (by simp [hb])
  obtain ⟨d, hd, hbefore⟩ := hdom.operand b done i rest s v ha.reachable hb
    (reads?_iff.mpr ⟨b, body, hi, hbody, hv⟩)
  rw [← hw.operand i b body s v hi hbody hv]
  exact ha.recorded_source hp hdef hw hd hbefore

theorem Arrives.condition (hp : f.Placed) (hdef : f.Defined) (hdom : f.DominanceRespecting)
    (hw : f.WellSorted) (ha : Arrives f vars io b (f.blockInstrs b) e)
    (hv : f.condition? b = some v) : (e.values v).isSome := by
  obtain ⟨d, c, hd, hc, hdomc⟩ := hdom.condition b v ha.reachable hv
  have hbefore : f.Before d b (f.blockInstrs b) := by
    by_cases hcb : c = b
    · exact .inl (hp.mem_iff.mpr (hcb ▸ hc))
    · exact .inr ⟨c, hc, hcb, hdomc⟩
  have hrec := ha.recorded_source hp hdef hw hd hbefore
  rwa [hw.condition b v hv, if_neg (by simp)] at hrec

end Function

/-- It gives a result or faults, and has no error to report. -/
def Eval.Sure {α : Type} (x : Eval α) : Prop := ∀ err, x ≠ .error (.error err)

namespace Eval

variable {α β : Type}

theorem sure_ok (a : α) : Sure (.ok a) := fun _ h => by cases h

theorem sure_lift (x : Checked α) : Sure (liftM x : Eval α) := by
  intro err h
  cases x <;> cases h

theorem Sure.bind {x : Eval α} {k : α → Eval β} (hx : x.Sure) (hk : ∀ a, (k a).Sure) :
    (x >>= k).Sure := by
  intro err h
  cases x with
  | ok a => exact hk a err h
  | error e =>
    cases h
    exact hx err rfl

theorem sure_mapM {k : α → Eval β} {l : List α} (h : ∀ a ∈ l, (k a).Sure) : (l.mapM k).Sure := by
  induction l with
  | nil => exact sure_ok _
  | cons a l ih =>
    rw [List.mapM_cons]
    exact (h a (by simp)).bind fun b =>
      (ih fun x hx => h x (by simp [hx])).bind fun bs => sure_ok _

end Eval

namespace Machine

open Eval

variable {m : Machine} {s : Setting} {f : Function} {i : InstrId} {v : ValueId}

theorem sure_read (h : (m.env.values v).isSome) : (m.read v).Sure := by
  obtain ⟨x, hx⟩ := Option.isSome_iff_exists.mp h
  have hread : m.read v = .ok x := toOption_eq_some.mp ((toOption_read m v).trans hx)
  exact hread ▸ sure_ok x

theorem sure_place (h : (m.env.places v).isSome) : (m.place v).Sure := by
  obtain ⟨p, hp⟩ := Option.isSome_iff_exists.mp h
  have hplace : m.place v = .ok p := toOption_eq_some.mp ((toOption_place m v).trans hp)
  exact hplace ▸ sure_ok p

theorem sure_operand {slot : Nat} {o : Operand} (h : (m.env.values o.value).isSome) :
    (m.operand f i slot o).Sure :=
  (sure_read h).bind fun _ => (sure_lift _).bind fun _ => (sure_lift _).bind fun _ =>
    (sure_mapM fun _ _ => sure_lift _).bind fun _ => sure_ok _

theorem sure_alu [FloatOps] {dest : Option ValueId} {a : Alu}
    (hbits : ∀ v x, dest = some v → f.values.get? v = some x → x.shape.bits = 32)
    (h : ∀ o ∈ a.srcs, (m.env.values o.value).isSome) : (m.alu f i dest a).Sure := by
  have hsrcs : Sure (a.srcs.zipIdx.mapM fun p => m.operand f i p.2 p.1) := by
    refine sure_mapM fun p hp => sure_operand (h p.1 ?_)
    exact List.mem_of_getElem? (List.mem_zipIdx_iff_getElem?.mp hp)
  cases dest with
  | none =>
    simp only [alu, pure_bind, ne_eq, not_true_eq_false, if_false]
    exact hsrcs.bind fun _ => sure_ok _
  | some v =>
    cases hx : f.value v with
    | error e =>
      simp only [alu, hx]
      intro err h
      cases h
    | ok x =>
      have h32 := hbits v x rfl (Function.value_eq_ok.mp hx)
      have hlift : (liftM (Except.ok x : Checked Value) : Eval Value) = .ok x := rfl
      simp only [alu, hx, hlift, ok_bind, pure_bind, h32, ne_eq, not_true_eq_false, if_false]
      exact hsrcs.bind fun _ => sure_ok _

theorem sure_flatSlot {a : Access} {offset : ValueId} (h : (m.env.values offset).isSome) :
    (m.flatSlot a offset).Sure :=
  (sure_read h).bind fun _ => sure_lift _

theorem sure_derefSlot {deref : ValueId} (h : (m.env.places deref).isSome) :
    (m.derefSlot s deref).Sure :=
  (sure_place h).bind fun _ => (sure_lift _).bind fun _ => (sure_lift _).bind fun _ => sure_ok _

theorem sure_access {dest : Option ValueId} {a : Access}
    (h : ∀ slot v, a.srcs[slot]? = some v → if (Body.access a).isPlaceSlot slot then
      (m.env.places v).isSome else (m.env.values v).isSome) : (m.access s dest a).Sure := by
  have hsrc : ∀ slot {β : Type} {k : ValueId → Eval β}, (∀ v, a.srcs[slot]? = some v →
      (k v).Sure) → (liftM (a.src slot) >>= k).Sure := by
    intro slot β k hk
    cases hs : a.srcs[slot]? with
    | none =>
      intro err herr
      simp only [Access.src, hs] at herr
      cases herr
    | some v =>
      simp only [Access.src, hs]
      exact hk v hs
  have hvalue : ∀ slot v, (Body.access a).isPlaceSlot slot = false → a.srcs[slot]? = some v →
      (m.env.values v).isSome := by
    intro slot v hslot hv
    simpa only [hslot, Bool.false_eq_true, if_false] using h slot v hv
  have hplace : ∀ v, (Body.access a).isPlaceSlot 0 = true → a.srcs[0]? = some v →
      (m.env.places v).isSome := by
    intro v hslot hv
    simpa only [hslot, if_true] using h 0 v hv
  cases hk : a.kind <;> simp only [access, hk]
  case storeOutput =>
    exact hsrc 0 fun v hv => (sure_read (hvalue 0 v (by simp [Body.isPlaceSlot, hk,
      Intrinsic.isDerefAccess]) hv)).bind fun _ => hsrc 1 fun w hw =>
        (sure_flatSlot (hvalue 1 w (by simp [Body.isPlaceSlot]) hw)).bind fun _ => sure_lift _
  case storeDeref =>
    exact hsrc 0 fun v hv => (sure_derefSlot (hplace v (by simp [Body.isPlaceSlot, hk,
      Intrinsic.isDerefAccess]) hv)).bind fun _ => hsrc 1 fun w hw =>
        (sure_read (hvalue 1 w (by simp [Body.isPlaceSlot]) hw)).bind fun _ => sure_lift _
  case loadInput | loadUniform =>
    exact hsrc 0 fun v hv => (sure_flatSlot (hvalue 0 v (by simp [Body.isPlaceSlot, hk,
      Intrinsic.isDerefAccess]) hv)).bind fun _ => (sure_lift _).bind fun _ => sure_ok _
  all_goals
    exact hsrc 0 fun v hv => (sure_derefSlot (hplace v (by simp [Body.isPlaceSlot, hk,
      Intrinsic.isDerefAccess]) hv)).bind fun _ => (sure_lift _).bind fun _ => sure_ok _

theorem sure_derefPlace {d : Deref}
    (h : ∀ slot v, (Body.deref d).srcs[slot]? = some v → if (Body.deref d).isPlaceSlot slot then
      (m.env.places v).isSome else (m.env.values v).isSome) : (m.derefPlace d).Sure := by
  obtain ⟨step, mode, type⟩ := d
  cases step with
  | var v => exact sure_ok _
  | element parent index =>
    have hparent : (m.env.places parent).isSome := by
      simpa [Body.isPlaceSlot] using h 0 parent (by simp [Body.srcs])
    have hindex : (m.env.values index).isSome := by
      simpa [Body.isPlaceSlot] using h 1 index (by simp [Body.srcs])
    exact (sure_place hparent).bind fun _ => (sure_lift _).bind fun _ =>
      (sure_read hindex).bind fun _ => (sure_lift _).bind fun _ => (sure_lift _).bind fun _ =>
        sure_ok _

/-- An instruction whose operands are there has no error to report. -/
theorem sure_perform [FloatOps] {x : Instr}
    (hbits : ∀ a v y, x.body = .alu a → x.dest = some v → s.func.values.get? v = some y →
      y.shape.bits = 32)
    (h : ∀ slot v, x.body.srcs[slot]? = some v → if x.body.isPlaceSlot slot then
      (m.env.places v).isSome else (m.env.values v).isSome) : (m.perform s i x).Sure := by
  cases hb : x.body with
  | alu a =>
    simp only [perform, hb]
    refine (sure_alu (fun v y => hbits a v y hb) fun o ho => ?_).bind fun _ => sure_ok _
    obtain ⟨slot, hslot⟩ := List.getElem?_of_mem ho
    simpa [hb, Body.isPlaceSlot] using h slot o.value (by simp [hb, Body.srcs, hslot])
  | access a =>
    simp only [perform, hb]
    exact sure_access fun slot v hv => hb ▸ h slot v (by rw [hb]; exact hv)
  | deref d =>
    simp only [perform, hb]
    exact (sure_derefPlace fun slot v hv => hb ▸ h slot v (by rw [hb]; exact hv)).bind
      fun _ => sure_ok _
  | const lanes =>
    simp only [perform, hb]
    intro err herr
    split at herr <;> cases herr
  | undef =>
    simp only [perform, hb]
    exact sure_ok _

theorem sure_next {t : Terminator}
    (h : ∀ c, t.condition? = some c → (m.env.values c).isSome) : (m.next t).Sure := by
  cases t with
  | branch c yes no => exact (sure_read (h c rfl)).bind fun _ => sure_ok _
  | _ => exact sure_ok _

end Machine

/-- What a run relies on not to get stuck. -/
structure Function.Steady (f : Function) : Prop where
  linked : f.Linked
  dominance : f.DominanceRespecting
  sorted : f.WellSorted

namespace Machine

variable {m m' : Machine} {s : Setting} {b : BlockId} {done rest : List InstrId} {i : InstrId}
  {io : IoState} {err : EvalError}

variable [FloatOps]

theorem step_error (hf : s.func.Steady) (ha : s.func.Arrives s.vars io b done m.env)
    (hb : s.func.blockInstrs b = done ++ i :: rest)
    (h : m.step s i = .error (.error err)) : err = .stepLimit s.limit := by
  by_cases hl : s.limit ≤ m.steps
  · simp only [step, if_pos hl] at h
    cases h
    rfl
  · have hi : s.func.home? i = some b := hf.linked.placed.mem_iff.mp (by simp [hb])
    obtain ⟨x, hx, -, -⟩ := Function.home?_eq_some.mp hi
    have hinstr : s.func.instr i = .ok x := Function.instr_eq_ok.mpr hx
    have hbody : s.func.body? i = some x.body := by simp [Function.body?, hx]
    simp only [step, if_neg hl, hinstr] at h
    refine absurd h (sure_perform (fun a v y hbodyA hdest hy => ?_) (fun slot v hv => ?_) err)
    · refine hf.sorted.bits i b a y.shape hi (hbody.trans (by rw [hbodyA])) ?_
      simp [Function.destShape?, Function.dest?, hx, hdest, Function.shape?, hy]
    · exact ha.operand hf.linked.placed hf.linked.defined hf.dominance hf.sorted hb hbody hv

theorem stepAll_cases (hf : s.func.Steady) (ha : s.func.Arrives s.vars io b done m.env)
    (hb : s.func.blockInstrs b = done ++ rest) {halt : Option Halt}
    (h : stepAll s rest m = (m', halt)) :
    (halt = none ∧ s.func.Arrives s.vars io b (s.func.blockInstrs b) m'.env) ∨
      ∃ e, halt = some e ∧ ∀ err, e = .error err → err = .stepLimit s.limit := by
  induction rest generalizing m done with
  | nil =>
    obtain ⟨rfl, rfl⟩ := Prod.mk.inj h
    exact .inl ⟨rfl, by simpa [hb] using ha⟩
  | cons i rest ih =>
    cases hstep : m.step s i with
    | ok m₁ =>
      simp only [stepAll, hstep] at h
      have hmeans := (step_ok hf.linked.defined hstep).1
      exact ih (.step ha hb hmeans) (by simp [hb]) h
    | error e =>
      simp only [stepAll, hstep] at h
      obtain ⟨-, rfl⟩ := Prod.mk.inj h
      refine .inr ⟨e, rfl, fun err he => ?_⟩
      exact step_error hf ha hb (he ▸ hstep)

theorem runFor_error (hf : s.func.Steady) {n : Nat}
    (ha : s.func.Arrives s.vars io b [] m.env)
    (h : runFor s n (.entering m b) = some (m', some (.error err))) :
    err = .stepLimit s.limit := by
  induction n generalizing m b with
  | zero => cases h
  | succ n ih =>
    simp only [runFor, transition] at h
    cases hblock : s.func.blocks.get? b with
    | none =>
      rw [hblock] at h
      cases n <;> cases h
    | some block =>
      have hinstrs : s.func.blockInstrs b = block.instrs := by
        simp [Function.blockInstrs, hblock]
      have hterm : s.func.terminator? b = some block.terminator := by
        simp [Function.terminator?, hblock]
      rw [hblock] at h
      cases hall : stepAll s block.instrs m with
      | mk m₁ halt =>
        rw [← hinstrs] at hall
        rcases stepAll_cases hf ha (by simp) hall with ⟨rfl, ha₁⟩ | ⟨e, rfl, he⟩
        · rw [hinstrs] at hall
          simp only [hall] at h
          cases hnext : m₁.next block.terminator with
          | error e =>
            rw [hnext] at h
            have hhalt : e = .error err := by
              cases n <;> exact Option.some.inj (Prod.mk.inj (Option.some.inj h)).2
            refine absurd (hhalt ▸ hnext) (sure_next (fun c hc => ?_) err)
            exact ha₁.condition hf.linked.placed hf.linked.defined hf.dominance hf.sorted
              (by simp [Function.condition?, hterm, hc])
          | ok t =>
            cases t with
            | none =>
              rw [hnext] at h
              cases n <;> cases h
            | some t =>
              rw [hnext] at h
              refine ih (.goes ha₁ hterm ?_) h
              rw [← toOption_next, hnext]
              rfl
        · rw [hinstrs] at hall
          simp only [hall] at h
          have hhalt : e = .error err := by
            cases n <;> exact Option.some.inj (Prod.mk.inj (Option.some.inj h)).2
          exact he err hhalt

end Machine

/-- A run of a function in which operands are defined at dominating points and are of the kind
their positions ask for ends well, at the step limit or by a fault. -/
theorem Shader.run_ends_or_stepLimit [FloatOps] {s : Shader} {f : Function} {fs : List Function}
    (hs : s.functions = f :: fs) (hreached : f.Reached) (hdom : f.DominanceRespecting)
    (hsorted : f.WellSorted) (io : IoState) (limit : Nat) {o : Outcome}
    (h : s.run io limit = some o) :
    o.halt = none ∨ o.halt = some (.error (.stepLimit limit)) ∨
      ∃ fault, o.halt = some (.fault fault) := by
  simp only [Shader.run, hs, Option.map_eq_some_iff] at h
  obtain ⟨⟨m, halt⟩, hrun, rfl⟩ := h
  cases halt with
  | none => exact .inl rfl
  | some halt =>
    cases halt with
    | fault fault => exact .inr (.inr ⟨fault, rfl⟩)
    | error err =>
      have hstart : f.Arrives s.vars io entryBlock [] (Machine.start io).env :=
        Machine.env_start io ▸ .start
      have herr := Machine.runFor_error (s := ⟨s.vars, f, limit⟩)
        ⟨hreached.linked, hdom, hsorted⟩ hstart hrun
      exact .inr (.inl (by rw [herr]))

/-- A loop that stores the sum of a loaded element with itself until the element is zero. -/
def elementEdits : List Edit :=
  [.insert (.stop ⟨0⟩) (.const [1]) (some ⟨1, 32⟩),
    .insert (.stop ⟨0⟩) (.deref ⟨.var ⟨0⟩, .shaderIn, .array (.floats 2) 3⟩) (some ⟨1, 32⟩),
    .insert (.stop ⟨0⟩) (.deref ⟨.element ⟨1⟩ ⟨0⟩, .shaderIn, .floats 2⟩) (some ⟨1, 32⟩),
    .insert (.stop ⟨0⟩) (.access (.ofSources .loadDeref 2 [⟨2⟩])) (some ⟨2, 32⟩),
    .addBlock, .addBlock, .setTerminator ⟨0⟩ (.jump ⟨1⟩),
    .insert (.stop ⟨1⟩) (.alu ⟨.fadd, [.whole ⟨3⟩, .whole ⟨3⟩]⟩) (some ⟨2, 32⟩),
    .insert (.stop ⟨1⟩) (.access ⟨.storeOutput, 2, [⟨4⟩, ⟨0⟩], 0, 0, 3⟩) none,
    .setTerminator ⟨1⟩ (.branch ⟨3⟩ ⟨1⟩ ⟨2⟩)]

def elementShader : Shader :=
  ⟨.fragment, (Variables.empty.add ⟨"v", .shaderIn, .array (.floats 2) 3, 32, 0,
    ⟨false, false, false⟩, 0⟩).2, [Edit.outcome elementEdits]⟩

theorem run_ends_or_stepLimit_elementShader :
    (Edit.outcome elementEdits).Reached ∧ (Edit.outcome elementEdits).DominanceRespecting ∧
      (Edit.outcome elementEdits).WellSorted ∧
      ∃ o, elementShader.run ⟨[(⟨33, 0⟩, 1)], [], []⟩ 9 = some o ∧ (o.halt = none ∨
        o.halt = some (.error (.stepLimit 9)) ∨ ∃ fault, o.halt = some (.fault fault)) := by
  have hreached := Function.Reached.outcome elementEdits
  have hdom : (Edit.outcome elementEdits).DominanceRespecting :=
    Function.dominanceRespecting_of_check hreached.linked (by decide +kernel)
  have hsorted : (Edit.outcome elementEdits).WellSorted := by decide +kernel
  have hrun : ∃ o, elementShader.run ⟨[(⟨33, 0⟩, 1)], [], []⟩ 9 = some o :=
    Option.isSome_iff_exists.mp (by decide +kernel)
  obtain ⟨o, ho⟩ := hrun
  exact ⟨hreached, hdom, hsorted, o, ho,
    Shader.run_ends_or_stepLimit rfl hreached hdom hsorted _ 9 ho⟩

end ShaderSSA
