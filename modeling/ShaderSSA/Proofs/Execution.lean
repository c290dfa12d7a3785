import ShaderSSA.Proofs.Links
import ShaderSSA.Proofs.Meaning

/-! Runs of the machine and their meaning. A run that ends well is one of the meaning, and a run
of the meaning is one of the machine once the step limit is large enough. -/

namespace ShaderSSA

section ToOption

variable {ε α β : Type}

theorem toOption_eq_some {x : Except ε α} {a : α} : x.toOption = some a ↔ x = .ok a := by
  cases x <;> simp [Except.toOption]

theorem toOption_bind (x : Except ε α) (g : α → Except ε β) :
    (x >>= g).toOption = x.toOption.bind fun a => (g a).toOption := by
  cases x <;> rfl

theorem toOption_mapM (g : α → Except ε β) (l : List α) :
    (l.mapM g).toOption = l.mapM fun a => (g a).toOption := by
  induction l with
  | nil => rfl
  | cons a l ih =>
    simp only [List.mapM_cons, toOption_bind, ih]
    rfl

theorem toOption_ofChecked (x : Checked α) : (Eval.ofChecked x).toOption = x.toOption := by
  cases x <;> rfl

theorem toOption_lift (x : Checked α) : (liftM x : Eval α).toOption = x.toOption :=
  toOption_ofChecked x

theorem toOption_inBounds (o : Option α) : (Checked.inBounds o).toOption = o := by
  cases o <;> rfl

theorem toOption_noOverflow (o : Option α) : (Checked.noOverflow o).toOption = o := by
  cases o <;> rfl

theorem toOption_pure (a : α) : (pure a : Except ε α).toOption = some a := rfl

theorem toOption_ok (a : α) : (Except.ok a : Except ε α).toOption = some a := rfl

theorem toOption_throw (e : ε) : (throw e : Except ε α).toOption = none := rfl

end ToOption

namespace Machine

variable {m : Machine}

def env (m : Machine) : Env := ⟨m.values.find?, m.places.find?, m.io⟩

theorem env_start (io : IoState) : (start io).env = .start io := by
  simp [env, start, Env.start, SideTable.find?, SideTable.get?, SideTable.empty, funext_iff]

theorem toOption_read (m : Machine) (v : ValueId) : (m.read v).toOption = m.env.values v := by
  simp only [read, env]
  cases m.values.find? v <;> rfl

theorem toOption_place (m : Machine) (v : ValueId) : (m.place v).toOption = m.env.places v := by
  simp only [place, env]
  cases m.places.find? v <;> rfl

theorem env_define (m : Machine) (dest : Option ValueId) (x : Lanes) :
    (m.define dest x).env = m.env.apply dest (.value x) := by
  cases dest with
  | none => rfl
  | some v =>
    simp only [define, env, Env.apply, Option.elim, Env.define, Env.mk.injEq, and_true]
    funext w
    exact SideTable.find?_set m.values v w x

theorem env_definePlace (m : Machine) (dest : Option ValueId) (p : Place) :
    (m.definePlace dest p).env = m.env.apply dest (.place p) := by
  cases dest with
  | none => rfl
  | some v =>
    simp only [definePlace, env, Env.apply, Option.elim, Env.definePlace, Env.mk.injEq, true_and,
      and_true]
    funext w
    exact SideTable.find?_set m.places v w p

theorem toOption_lanesRead {f : Function} {i : InstrId} {x : Instr} {a : Alu} (slot : Nat)
    (hx : f.instrs.get? i = some x) (ha : x.body = .alu a)
    (hd : ∀ v, x.dest = some v → ∃ y, f.values.get? v = some y) :
    (f.lanesRead i slot).toOption = a.op.readWidth? (f.destShape? i) slot := by
  have hdest : f.destShape? i = x.dest.bind f.shape? := by
    simp [Function.destShape?, Function.dest?, hx]
  simp only [Function.lanesRead, Function.instr, hx, Checked.inBounds, ok_bind, ha, Body.alu?,
    Checked.orElse, AluOp.readWidth?, hdest]
  cases a.op.shape.sourceWidths[slot]? with
  | none => rfl
  | some n =>
    cases n with
    | succ n => simp [toOption_pure]
    | zero =>
      cases hv : x.dest with
      | none => simp [Function.destWidth, hv, toOption_pure]
      | some v =>
        obtain ⟨y, hy⟩ := hd v hv
        simp [Function.destWidth, hv, Function.value, hy, Checked.inBounds, Function.shape?,
          toOption_ok]

theorem toOption_operand {f : Function} {i : InstrId} {x : Instr} {a : Alu} (slot : Nat)
    (o : Operand) (hx : f.instrs.get? i = some x) (ha : x.body = .alu a)
    (hd : ∀ v, x.dest = some v → ∃ y, f.values.get? v = some y) :
    (m.operand f i slot o).toOption =
      (a.op.readWidth? (f.destShape? i) slot).bind fun n => m.env.operand n o := by
  simp only [operand, Env.operand, toOption_bind, toOption_lift, toOption_read, toOption_mapM,
    toOption_inBounds, toOption_pure, toOption_lanesRead slot hx ha hd]
  cases m.env.values o.value with
  | none => cases a.op.readWidth? (f.destShape? i) slot <;> rfl
  | some raw => cases a.op.readWidth? (f.destShape? i) slot <;> rfl

theorem toOption_alu [FloatOps] {f : Function} {i : InstrId} {x : Instr} {a : Alu}
    (hx : f.instrs.get? i = some x) (ha : x.body = .alu a)
    (hd : ∀ v, x.dest = some v → ∃ y, f.values.get? v = some y) :
    (m.alu f i x.dest a).toOption = m.env.alu (f.destShape? i) a := by
  have hdest : f.destShape? i = x.dest.bind f.shape? := by
    simp [Function.destShape?, Function.dest?, hx]
  have hops : (a.srcs.zipIdx.mapM fun p => m.operand f i p.2 p.1).toOption =
      a.srcs.zipIdx.mapM fun p =>
        (a.op.readWidth? (f.destShape? i) p.2).bind fun n => m.env.operand n p.1 := by
    rw [toOption_mapM]
    congr 1
    funext p
    exact toOption_operand p.2 p.1 hx ha hd
  have hrun : ∀ w, (a.srcs.zipIdx.mapM (fun p => m.operand f i p.2 p.1) >>= fun srcs =>
      (pure (a.op.eval w srcs) : Eval Lanes)).toOption =
      (a.srcs.zipIdx.mapM fun p =>
        (a.op.readWidth? (f.destShape? i) p.2).bind fun n => m.env.operand n p.1).map
        (a.op.eval w) := by
    intro w
    rw [toOption_bind, hops]
    cases (a.srcs.zipIdx.mapM fun p =>
      (a.op.readWidth? (f.destShape? i) p.2).bind fun n => m.env.operand n p.1) <;> rfl
  cases hv : x.dest with
  | none =>
    have hnone : f.destShape? i = none := by simp [hdest, hv]
    rw [hnone] at hrun ⊢
    exact hrun 1
  | some v =>
    obtain ⟨y, hy⟩ := hd v hv
    have hshape : f.destShape? i = some y.shape := by simp [hdest, hv, Function.shape?, hy]
    have hval : f.value v = .ok y := Function.value_eq_ok.mpr hy
    rw [hshape] at hrun ⊢
    by_cases hb : y.shape.bits = 32
    · have halu : m.env.alu (some y.shape) a = _ := if_pos hb
      rw [halu]
      refine Eq.trans ?_ (hrun y.shape.width)
      simp [alu, hval, liftM, monadLift, MonadLift.monadLift, Eval.ofChecked, hb]
    · have halu : m.env.alu (some y.shape) a = none := if_neg hb
      rw [halu]
      simp [alu, hval, liftM, monadLift, MonadLift.monadLift, Eval.ofChecked, hb, toOption_bind,
        toOption_throw]

theorem toOption_src (a : Access) (slot : Nat) : (a.src slot).toOption = a.srcs[slot]? :=
  toOption_inBounds _

theorem toOption_flatSlot (m : Machine) (a : Access) (v : ValueId) :
    (m.flatSlot a v).toOption = m.env.flatSlot a.base v := by
  simp only [flatSlot, Env.flatSlot, toOption_bind, toOption_lift, toOption_read]
  rfl

theorem toOption_derefSlot (m : Machine) (s : Setting) (v : ValueId) :
    (m.derefSlot s v).toOption = m.env.derefSlot s.vars v := by
  simp only [derefSlot, Env.derefSlot, toOption_bind, toOption_lift, toOption_place,
    Variables.get, toOption_inBounds, toOption_pure]
  rfl

theorem toOption_derefPlace (m : Machine) (d : Deref) :
    (m.derefPlace d).toOption = m.env.derefPlace d := by
  simp only [derefPlace, Env.derefPlace]
  cases d.step with
  | var v => rfl
  | element parent index =>
    simp only [toOption_bind, toOption_lift, toOption_place, toOption_read, toOption_noOverflow,
      toOption_pure]
    rfl

theorem env_storeAll (m : Machine) (slot first width mask : Nat) (x : Lanes)
    (dest : Option ValueId) :
    (m.storeAll slot first width mask x).toOption.map env =
      (m.env.stored slot first width mask x).map (m.env.apply dest) := by
  simp only [storeAll, Env.stored, toOption_bind]
  cases h : ((List.range width).foldlM (store slot first mask x) m.io.outputs).toOption with
  | none =>
    have h' : ((List.range width).foldlM (store slot first mask x) m.env.io.outputs).toOption =
      none := h
    simp [h']
  | some t =>
    have h' : ((List.range width).foldlM (store slot first mask x) m.env.io.outputs).toOption =
      some t := h
    simp only [h', Option.bind_some, toOption_pure, Option.map_some]
    rfl

theorem env_loaded (m : Machine) (table : Channels) (slot first width : Nat)
    (dest : Option ValueId) :
    ((load table slot first width).toOption.bind fun x => some (m.define dest x).env) =
      (Env.loaded table slot first width).map (m.env.apply dest) := by
  simp only [Env.loaded]
  cases (load table slot first width).toOption with
  | none => rfl
  | some x => simp [env_define]

theorem env_access (m : Machine) (s : Setting) (dest : Option ValueId) (a : Access) :
    (m.access s dest a).toOption.map env =
      (m.env.access s.vars a).map (m.env.apply dest) := by
  have hio : m.env.io = m.io := rfl
  simp only [access, Env.access, hio]
  cases a.kind <;>
    simp only [toOption_bind, toOption_lift, toOption_src, toOption_flatSlot, toOption_derefSlot,
      toOption_read, toOption_pure, Option.map_bind, Option.bind_eq_bind, Function.comp_def,
      Option.map_some, env_loaded, env_storeAll m _ _ _ _ _ dest]

theorem env_perform [FloatOps] {s : Setting} {i : InstrId} {x : Instr} (m : Machine)
    (hx : s.func.instrs.get? i = some x)
    (hd : ∀ v, x.dest = some v → ∃ y, s.func.values.get? v = some y) :
    (m.perform s i x).toOption.map env = s.func.step? s.vars i m.env := by
  have hbody : s.func.body? i = some x.body := by simp [Function.body?, hx]
  have hdest : s.func.dest? i = x.dest := by simp [Function.dest?, hx]
  simp only [Function.step?, hbody, hdest, Option.bind_some, perform]
  cases hb : x.body with
  | alu a =>
    simp only [toOption_bind, toOption_alu hx hb hd, toOption_pure, Env.effect]
    cases m.env.alu (s.func.destShape? i) a with
    | none => rfl
    | some y => simp [env_define]
  | access a => exact env_access m s x.dest a
  | deref d =>
    simp only [toOption_bind, toOption_derefPlace, toOption_pure, Env.effect]
    cases m.env.derefPlace d with
    | none => rfl
    | some p => simp [env_definePlace]
  | const lanes =>
    simp only [Env.effect]
    by_cases hl : lanes.length ≤ 4
    · simp [hl, toOption_pure, env_define]
    · simp [hl, toOption_throw]
  | undef =>
    simp [Env.effect, toOption_pure, env_define]

theorem lift_eq_ok {α : Type} {x : Checked α} {a : α} : (liftM x : Eval α) = .ok a ↔ x = .ok a := by
  rw [← toOption_eq_some, toOption_lift, toOption_eq_some]

@[simp] theorem steps_define (m : Machine) (dest : Option ValueId) (x : Lanes) :
    (m.define dest x).steps = m.steps := by
  cases dest <;> rfl

@[simp] theorem steps_definePlace (m : Machine) (dest : Option ValueId) (p : Place) :
    (m.definePlace dest p).steps = m.steps := by
  cases dest <;> rfl

theorem steps_storeAll {m m' : Machine} {slot first width mask : Nat} {x : Lanes}
    (h : m.storeAll slot first width mask x = .ok m') : m'.steps = m.steps := by
  simp only [storeAll, bind_eq_ok, pure_eq_ok] at h
  obtain ⟨t, -, rfl⟩ := h
  rfl

theorem steps_access {m m' : Machine} {s : Setting} {dest : Option ValueId} {a : Access}
    (h : m.access s dest a = .ok m') : m'.steps = m.steps := by
  simp only [access] at h
  cases hk : a.kind <;> simp only [hk, bind_eq_ok, pure_eq_ok, lift_eq_ok] at h
  case storeOutput =>
    obtain ⟨_, -, _, -, _, -, _, -, h⟩ := h
    exact steps_storeAll h
  case storeDeref =>
    obtain ⟨_, -, _, -, _, -, _, -, h⟩ := h
    exact steps_storeAll h
  all_goals
    obtain ⟨_, -, _, -, _, -, rfl⟩ := h
    exact steps_define ..

theorem steps_perform [FloatOps] {m m' : Machine} {s : Setting} {i : InstrId} {x : Instr}
    (h : m.perform s i x = .ok m') : m'.steps = m.steps := by
  simp only [perform] at h
  cases hb : x.body with
  | alu a =>
    simp only [hb, bind_eq_ok, pure_eq_ok] at h
    obtain ⟨_, -, rfl⟩ := h
    exact steps_define ..
  | access a =>
    simp only [hb] at h
    exact steps_access h
  | deref d =>
    simp only [hb, bind_eq_ok, pure_eq_ok] at h
    obtain ⟨_, -, rfl⟩ := h
    exact steps_definePlace ..
  | const lanes =>
    simp only [hb] at h
    by_cases hl : lanes.length ≤ 4
    · simp only [hl, if_true, pure_eq_ok] at h
      subst h
      exact steps_define ..
    · simp [hl] at h
  | undef =>
    simp only [hb, pure_eq_ok] at h
    subst h
    exact steps_define ..

variable {s : Setting}

theorem dest_known {f : Function} (hf : f.Defined) {i : InstrId} {x : Instr}
    (hx : f.instrs.get? i = some x) (v : ValueId) (hv : x.dest = some v) :
    ∃ y, f.values.get? v = some y := by
  have hs := (hf.iff i v).mp (by simp [Function.dest?, hx, hv])
  obtain ⟨y, hy, -⟩ := Option.map_eq_some_iff.mp hs
  exact ⟨y, hy⟩

theorem step_ok [FloatOps] {m m' : Machine} {i : InstrId} (hf : s.func.Defined)
    (h : m.step s i = .ok m') :
    s.func.step? s.vars i m.env = some m'.env ∧ m'.steps = m.steps + 1 := by
  by_cases hl : s.limit ≤ m.steps
  · simp [step, hl, bind, Except.bind, throw, throwThe, MonadExceptOf.throw] at h
  · simp only [step, hl, if_false, bind_eq_ok, lift_eq_ok, Function.instr_eq_ok] at h
    obtain ⟨x, hx, h⟩ := h
    have he := env_perform { m with steps := m.steps + 1 } hx (dest_known hf hx)
    rw [h] at he
    exact ⟨he.symm, steps_perform h⟩

theorem step_of_meaning [FloatOps] {m : Machine} {i : InstrId} {e : Env} (hf : s.func.Defined)
    (h : s.func.step? s.vars i m.env = some e) (hl : m.steps < s.limit) :
    ∃ m', m.step s i = .ok m' ∧ m'.env = e ∧ m'.steps = m.steps + 1 := by
  have hb := h
  simp only [Function.step?, Option.bind_eq_some_iff] at hb
  obtain ⟨b, hb, -⟩ := hb
  obtain ⟨x, hx, -⟩ := Option.map_eq_some_iff.mp hb
  have he := env_perform { m with steps := m.steps + 1 } hx (dest_known hf hx)
  have he' : s.func.step? s.vars i m.env = some e := h
  rw [show ({ m with steps := m.steps + 1 } : Machine).env = m.env from rfl, he'] at he
  obtain ⟨m', hm, rfl⟩ := Option.map_eq_some_iff.mp he
  have hm := toOption_eq_some.mp hm
  refine ⟨m', ?_, rfl, steps_perform hm⟩
  simp only [step, Nat.not_le.mpr hl, if_false, bind_eq_ok, lift_eq_ok, Function.instr_eq_ok]
  exact ⟨x, hx, hm⟩

theorem stepAll_ok [FloatOps] {is : List InstrId} {m m' : Machine} (hf : s.func.Defined)
    (h : stepAll s is m = (m', none)) : s.func.exec? s.vars is m.env = some m'.env := by
  induction is generalizing m with
  | nil =>
    obtain rfl : m = m' := by simpa [stepAll] using h
    rfl
  | cons i is ih =>
    cases hi : m.step s i with
    | error halt => simp [stepAll, hi] at h
    | ok k =>
      have hk := (step_ok hf hi).1
      have hrest := ih (by simpa [stepAll, hi] using h)
      simp only [Function.exec?] at hrest
      simp [Function.exec?, hk, hrest]

theorem stepAll_of_meaning [FloatOps] {is : List InstrId} {m : Machine} {e : Env}
    (hf : s.func.Defined) (h : s.func.exec? s.vars is m.env = some e)
    (hl : m.steps + is.length ≤ s.limit) :
    ∃ m', stepAll s is m = (m', none) ∧ m'.env = e ∧ m'.steps = m.steps + is.length := by
  induction is generalizing m with
  | nil => exact ⟨m, rfl, by simpa [Function.exec?] using h, rfl⟩
  | cons i is ih =>
    simp only [Function.exec?, List.foldlM_cons, Option.bind_eq_bind,
      Option.bind_eq_some_iff] at h
    obtain ⟨e₁, h₁, h⟩ := h
    simp only [List.length_cons] at hl
    obtain ⟨k, hk, rfl, hs⟩ := step_of_meaning hf h₁ (by omega)
    obtain ⟨m', hm, he, hs'⟩ := ih h (by omega)
    refine ⟨m', by simpa [stepAll, hk] using hm, he, ?_⟩
    simp only [List.length_cons]
    omega

theorem toOption_next (m : Machine) (t : Terminator) : (m.next t).toOption = m.env.next t := by
  cases t with
  | jump c => rfl
  | ret => rfl
  | branch c yes no =>
    simp only [next, Env.next, toOption_bind, toOption_read, toOption_pure]
    cases m.env.values c <;> rfl

/-- A run that ends well is a run of the meaning. -/
theorem runFor_ok [FloatOps] {n : Nat} {b : BlockId} {m m' : Machine} (hf : s.func.Defined)
    (h : runFor s n (.entering m b) = some (m', none)) :
    s.func.Runs s.vars b m.env m'.io := by
  induction n generalizing m b with
  | zero => simp [runFor] at h
  | succ n ih =>
    simp only [runFor, transition] at h
    cases hb : s.func.blocks.get? b with
    | none => simp [hb, runFor] at h
    | some x =>
      have hterm : s.func.terminator? b = some x.terminator := by simp [Function.terminator?, hb]
      have hinstrs : s.func.blockInstrs b = x.instrs := by simp [Function.blockInstrs, hb]
      simp only [hb] at h
      rcases hs : stepAll s x.instrs m with ⟨k, halt⟩
      cases halt with
      | some halt => simp [hs, runFor] at h
      | none =>
        have hexec := stepAll_ok hf hs
        rw [← hinstrs] at hexec
        have hnext := toOption_next k x.terminator
        simp only [hs] at h
        cases hn : k.next x.terminator with
        | error halt => simp [hn, runFor] at h
        | ok c =>
          rw [hn] at hnext
          cases c with
          | none =>
            obtain rfl : k = m' := by simpa [hn, runFor] using h
            exact .ret hterm hexec hnext.symm
          | some c => exact .goes hterm hexec hnext.symm (ih (by simpa [hn] using h))

/-- Enough transitions and enough steps make a run of the meaning a run of the machine. -/
theorem runFor_of_meaning [FloatOps] {f : Function} {vars : Variables} {b : BlockId} {e : Env}
    {io : IoState} (hf : f.Defined) (h : f.Runs vars b e io) : ∃ n k, ∀ limit m, m.env = e →
      m.steps + k ≤ limit → ∀ n' ≥ n, ∃ m',
        runFor ⟨vars, f, limit⟩ n' (.entering m b) = some (m', none) ∧ m'.io = io := by
  induction h with
  | @ret b e e' t ht he hn =>
    refine ⟨1, (f.blockInstrs b).length, ?_⟩
    intro limit m hm hl n' hn'
    obtain ⟨x, hx, rfl⟩ := Option.map_eq_some_iff.mp ht
    have hinstrs : f.blockInstrs b = x.instrs := by simp [Function.blockInstrs, hx]
    obtain ⟨k, hk, rfl, -⟩ := stepAll_of_meaning (s := ⟨vars, f, limit⟩) hf (hm ▸ he) hl
    obtain ⟨n', rfl⟩ : ∃ j, n' = j + 1 := ⟨n' - 1, by omega⟩
    have hnext : k.next x.terminator = .ok none := by
      rw [← toOption_eq_some, toOption_next, hn]
    rw [hinstrs] at hk
    refine ⟨k, ?_, rfl⟩
    simp [runFor, transition, hx, hk, hnext]
  | @goes b e e' t c io ht he hn hc ih =>
    obtain ⟨n, j, hrun⟩ := ih
    refine ⟨n + 1, (f.blockInstrs b).length + j, ?_⟩
    intro limit m hm hl n' hn'
    obtain ⟨x, hx, rfl⟩ := Option.map_eq_some_iff.mp ht
    have hinstrs : f.blockInstrs b = x.instrs := by simp [Function.blockInstrs, hx]
    obtain ⟨k, hk, rfl, hsteps⟩ :=
      stepAll_of_meaning (s := ⟨vars, f, limit⟩) hf (hm ▸ he) (by simp only; omega)
    obtain ⟨n', rfl⟩ : ∃ j, n' = j + 1 := ⟨n' - 1, by omega⟩
    have hnext : k.next x.terminator = .ok (some c) := by
      rw [← toOption_eq_some, toOption_next, hn]
    rw [hinstrs] at hk
    obtain ⟨m', hm', rfl⟩ := hrun limit k rfl (by omega) n' (by omega)
    refine ⟨m', ?_, rfl⟩
    simpa [runFor, transition, hx, hk, hnext] using hm'

end Machine

namespace Shader

theorem run_ok [FloatOps] {s : Shader} {io io' : IoState} {limit : Nat}
    (hf : ∀ f ∈ s.functions, f.Defined) (h : s.run io limit = some ⟨io', none⟩) :
    ∃ f fs, s.functions = f :: fs ∧ f.Runs s.vars entryBlock (.start io) io' := by
  cases hs : s.functions with
  | nil => simp [run, hs] at h
  | cons f fs =>
    simp only [run, hs, Option.map_eq_some_iff] at h
    obtain ⟨⟨m, halt⟩, hm, he⟩ := h
    obtain ⟨rfl, rfl⟩ : m.io = io' ∧ halt = none := by simpa using he
    have hd : f.Defined := hf f (by simp [hs])
    exact ⟨f, fs, rfl, Machine.env_start io ▸ Machine.runFor_ok hd hm⟩

theorem run_of_meaning [FloatOps] {s : Shader} {f : Function} {fs : List Function}
    {io io' : IoState} (hs : s.functions = f :: fs) (hf : f.Defined)
    (h : f.Runs s.vars entryBlock (.start io) io') :
    ∃ limit, s.run io limit = some ⟨io', none⟩ := by
  obtain ⟨n, k, hrun⟩ := Machine.runFor_of_meaning hf h
  have hbound : n ≤ transitionBound f (n + k) := by
    have h1 : (n + k + 1) * 1 ≤ (n + k + 1) * (f.blocks.size + 1) :=
      Nat.mul_le_mul_left _ (by omega)
    simp only [transitionBound]
    omega
  have hsteps : (Machine.start io).steps + k ≤ n + k := by
    simp [Machine.start]
  obtain ⟨m, hm, rfl⟩ := hrun (n + k) (.start io) (Machine.env_start io) hsteps _ hbound
  exact ⟨n + k, by simp [run, hs, hm]⟩

end Shader

theorem Shader.run_eq_some [FloatOps] {s : Shader} {io io' : IoState} {limit : Nat}
    (h : (s.run io limit).any (fun o => o.halt.isNone && o.io == io') = true) :
    s.run io limit = some ⟨io', none⟩ := by
  cases ho : s.run io limit with
  | none => simp [ho] at h
  | some o =>
    obtain ⟨io₁, halt⟩ := o
    obtain ⟨rfl, rfl⟩ : halt = none ∧ io₁ = io' := by simpa [ho] using h
    rfl

end ShaderSSA
