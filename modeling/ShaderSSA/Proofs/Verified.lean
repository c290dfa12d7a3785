import ShaderSSA.Check
import ShaderSSA.Proofs.Consistency
import ShaderSSA.Proofs.Execution

/-! What the checker promises. Of a function that passes, every instruction that is not removed
has as many sources as its kind asks for, each defined by an instruction that is not removed, and
selects lanes that its sources have. -/

namespace ShaderSSA

namespace Checking

variable {α β : Type}

theorem bind_passes {x : Checking α} {g : α → Checking β} {b : β} :
    (x >>= g) = .ok (.ok b) ↔ ∃ a, x = .ok (.ok a) ∧ g a = .ok (.ok b) := by
  change (ExceptT.bind x g : Checked (Except Defect β)) = .ok (.ok b) ↔ _
  unfold ExceptT.bind ExceptT.mk
  rw [bind_eq_ok]
  constructor
  · rintro ⟨r, hr, h⟩
    cases r with
    | error d => cases h
    | ok a => exact ⟨a, hr, h⟩
  · rintro ⟨a, ha, h⟩
    exact ⟨.ok a, ha, h⟩

theorem lift_passes {x : Checked α} {a : α} :
    (liftM x : Checking α) = .ok (.ok a) ↔ x = .ok a := by
  change ((fun a => Except.ok a) <$> x : Checked (Except Defect α)) = .ok (.ok a) ↔ _
  cases x <;> simp [Functor.map, Except.map]

theorem pure_passes {a b : α} : (pure a : Checking α) = .ok (.ok b) ↔ a = b := by
  change (Except.ok (Except.ok a) : Checked (Except Defect α)) = .ok (.ok b) ↔ _
  simp

theorem refuse_fails {d : Defect} {a : α} : refuse d ≠ (.ok (.ok a) : Checking α) := by
  intro h
  cases h

theorem require_passes {p : Bool} {d : Defect} {u : Unit} :
    require p d = .ok (.ok u) ↔ p = true := by
  cases p with
  | true => simp [require]
  | false => simp [require, refuse_fails]

theorem forM_passes {g : α → Checking Unit} {l : List α} {u : PUnit} :
    l.forM g = .ok (.ok u) ↔ ∀ a ∈ l, g a = .ok (.ok ()) := by
  induction l with
  | nil => simp [pure_passes]
  | cons a l ih =>
    simp only [List.forM_eq_forM] at ih
    simp only [List.forM_eq_forM, List.forM_cons, bind_passes, ih, List.mem_cons, forall_eq_or_imp]
    constructor
    · rintro ⟨_, ha, hl⟩
      exact ⟨ha, hl⟩
    · rintro ⟨ha, hl⟩
      exact ⟨(), ha, hl⟩

theorem bind_of_passes {x : Checking α} {g : α → Checking β} {a : α} (hx : x = .ok (.ok a)) :
    (x >>= g) = g a := by
  subst hx
  rfl

theorem bind_of_stops {x : Checking Unit} {y : Checking PUnit} (hx : x ≠ .ok (.ok ())) :
    (x >>= fun _ => y) = x := by
  rcases x with e | d | _
  · rfl
  · rfl
  · exact absurd rfl hx

theorem forM_stops {g : α → Checking Unit} {l : List α} {r : Checking Unit}
    (hr : r ≠ .ok (.ok ())) : l.forM g = r ↔ ∃ done a rest, l = done ++ a :: rest ∧
      (∀ b ∈ done, g b = .ok (.ok ())) ∧ g a = r := by
  induction l with
  | nil =>
    constructor
    · intro h
      exact absurd h.symm hr
    · rintro ⟨done, a, rest, h, -⟩
      simp at h
  | cons b l ih =>
    rw [List.forM_eq_forM] at ih
    rw [List.forM_eq_forM, List.forM_cons]
    by_cases hb : g b = .ok (.ok ())
    · rw [bind_of_passes hb, ih]
      constructor
      · rintro ⟨done, a, rest, rfl, hdone, ha⟩
        exact ⟨b :: done, a, rest, rfl, by simpa using ⟨hb, hdone⟩, ha⟩
      · rintro ⟨done, a, rest, hl, hdone, ha⟩
        cases done with
        | nil =>
          obtain ⟨rfl, -⟩ := List.cons.inj hl
          exact absurd (ha.symm.trans hb) hr
        | cons c done =>
          rw [List.forall_mem_cons] at hdone
          exact ⟨done, a, rest, (List.cons.inj hl).2, hdone.2, ha⟩
    · rw [bind_of_stops hb]
      constructor
      · intro h
        exact ⟨[], b, l, rfl, by simp, h⟩
      · rintro ⟨done, a, rest, hl, hdone, ha⟩
        cases done with
        | nil =>
          obtain ⟨rfl, -⟩ := List.cons.inj hl
          exact ha
        | cons c done =>
          obtain ⟨rfl, -⟩ := List.cons.inj hl
          exact absurd (hdone b List.mem_cons_self) hb

end Checking

theorem AluOp.arity_le (op : AluOp) : op.arity ≤ 4 := by
  cases op <;> decide

theorem Intrinsic.arity_le (k : Intrinsic) : k.arity ≤ 4 := by
  cases k <;> decide

/-- As many sources as the kind takes, and a mask within the channels. -/
def Access.Fits (a : Access) : Prop :=
  a.srcs.length = a.kind.arity ∧
    (a.kind.hasWriteMask = true → Checked.maskFrom a.writeMask a.width = .ok 0)

namespace Function

variable {f : Function}

/-- A value whose defining instruction is not removed. -/
def Live (f : Function) (v : ValueId) : Prop := ∃ i b, f.source? v = some i ∧ f.home? i = some b

theorem Live.hasValue {v : ValueId} (h : f.Live v) : f.hasValue v := by
  obtain ⟨j, b, hs, -⟩ := h
  obtain ⟨x, hx, -⟩ := Option.map_eq_some_iff.mp hs
  exact hasValue_iff.mpr ⟨x, hx⟩

instance (f : Function) (v : ValueId) : Decidable (f.Live v) :=
  decidable_of_iff ((f.source? v).bind f.home?).isSome <| by
    rw [Option.isSome_iff_exists]
    constructor
    · rintro ⟨b, hb⟩
      obtain ⟨i, hs, hh⟩ := Option.bind_eq_some_iff.mp hb
      exact ⟨i, b, hs, hh⟩
    · rintro ⟨i, b, hs, hh⟩
      exact ⟨b, by simp [hs, hh]⟩

theorem forall_live_iff (f : Function) (P : Shape → Prop) :
    (∀ v ∈ f.values.ids, f.Live v → ∀ s ∈ f.shape? v, P s) ↔
      ∀ v s, f.Live v → f.shape? v = some s → P s := by
  refine ⟨fun h v s hv hs => ?_, fun h v _ hv s hs => h v s hv hs⟩
  obtain ⟨x, hx, -⟩ := Option.map_eq_some_iff.mp hs
  exact h v ((Arena.mem_ids _ _).mpr (Arena.get?_eq_some_lt hx)) hv s hs

/-- Sources and conditions are defined by instructions that are not removed. -/
structure Closed (f : Function) : Prop where
  source : ∀ u v, f.reads? u = some v → f.Live v
  condition : ∀ b v, f.condition? b = some v → f.Live v

/-- As many operands as the opcode takes, each selecting lanes that its value has. -/
def AluFits (f : Function) (dest : Option Shape) (a : Alu) : Prop :=
  a.srcs.length = a.op.arity ∧ ∀ (slot : Nat) o, a.srcs[slot]? = some o →
    ∃ n shape, a.op.readWidth? dest slot = some n ∧ f.shape? o.value = some shape ∧
      n ≤ 4 ∧ ∀ k ∈ o.swizzle.toList.take n, k < shape.width

def BodyFits (f : Function) (dest : Option Shape) : Body → Prop
  | .alu a => f.AluFits dest a
  | .access a => a.Fits
  | _ => True

theorem BodyFits.mono {g : Function} {dest : Option Shape} {body : Body}
    (h : f.BodyFits dest body) (hshape : ∀ v s, f.shape? v = some s → g.shape? v = some s) :
    g.BodyFits dest body := by
  cases body with
  | alu a =>
    refine ⟨h.1, fun slot o ho => ?_⟩
    obtain ⟨n, s, hn, hs, hrest⟩ := h.2 slot o ho
    exact ⟨n, s, hn, hshape _ s hs, hrest⟩
  | _ => exact h

/-- What the checker has found out about a function that passes. -/
structure Verified (f : Function) : Prop where
  closed : f.Closed
  fits : ∀ i b body, f.home? i = some b → f.body? i = some body →
    f.BodyFits (f.destShape? i) body

theorem Verified.alu (h : f.Verified) (i : InstrId) (b : BlockId) (a : Alu)
    (hi : f.home? i = some b) (ha : f.body? i = some (.alu a)) : f.AluFits (f.destShape? i) a :=
  h.fits i b _ hi ha

theorem Verified.access (h : f.Verified) (i : InstrId) (b : BlockId) (a : Access)
    (hi : f.home? i = some b) (ha : f.body? i = some (.access a)) :
    a.srcs.length = a.kind.arity :=
  (h.fits i b _ hi ha).1

theorem live_of_definition {v : ValueId} {x : Value} {y : Instr} (hx : f.values.get? v = some x)
    (hy : f.instrs.get? x.source = some y) (hr : y.removed = false) : f.Live v :=
  ⟨x.source, y.block, by simp [source?, hx], home?_eq_some.mpr ⟨y, hy, hr, rfl⟩⟩

theorem checkSource_passes {i : InstrId} {slot : Nat} {v : ValueId}
    (h : f.checkSource i slot v = .ok (.ok ())) : f.Live v := by
  simp only [checkSource, Checking.bind_passes, Checking.require_passes, Checking.lift_passes,
    definition, bind_eq_ok, value_eq_ok, instr_eq_ok] at h
  obtain ⟨_, -, y, ⟨x, hx, hy⟩, _, hr, -⟩ := h
  exact live_of_definition hx hy (by simpa using hr)

theorem checkTerminator_passes {b : BlockId} {v : ValueId}
    (h : f.checkTerminator b = .ok (.ok ())) (hv : f.condition? b = some v) : f.Live v := by
  simp only [checkTerminator, Checking.bind_passes, Checking.lift_passes, block_eq_ok] at h
  obtain ⟨z, hz, h⟩ := h
  have hc : z.terminator.condition? = some v := by simpa [condition?_eq, hz] using hv
  simp only [hc, Checking.bind_passes, Checking.require_passes, Checking.lift_passes,
    definition, bind_eq_ok, value_eq_ok, instr_eq_ok] at h
  obtain ⟨_, -, y, ⟨x, hx, hy⟩, hr⟩ := h
  exact live_of_definition hx hy (by simpa using hr)

theorem checkLanes_passes {i : InstrId} {slot : Nat} {o : Operand} {x : Instr} {a : Alu}
    (hf : f.Defined) (hx : f.instrs.get? i = some x) (ha : x.body = .alu a)
    (h : f.checkLanes i slot o = .ok (.ok ())) :
    ∃ n shape, a.op.readWidth? (f.destShape? i) slot = some n ∧ f.shape? o.value = some shape ∧
      n ≤ 4 ∧ ∀ k ∈ o.swizzle.toList.take n, k < shape.width := by
  simp only [checkLanes, Checking.bind_passes, Checking.lift_passes, value_eq_ok] at h
  obtain ⟨y, hy, n, hn, lanes, hl, h⟩ := h
  have hw := Machine.toOption_lanesRead slot hx ha (Machine.dest_known hf hx)
  rw [hn] at hw
  by_cases hle : n ≤ 4
  · obtain rfl : o.swizzle.toList.take n = lanes := by simpa [Swizzle.lanes, hle] using hl
    refine ⟨n, y.shape, hw.symm, by simp [shape?, hy], hle, ?_⟩
    intro k hk
    cases hfind : (o.swizzle.toList.take n).find? (y.shape.width ≤ ·) with
    | some lane =>
      simp only [hfind] at h
      exact absurd h Checking.refuse_fails
    | none =>
      have := List.find?_eq_none.mp hfind k hk
      simpa using this
  · simp [Swizzle.lanes, hle] at hl

theorem checkAccess_passes {i : InstrId} {a : Access} :
    checkAccess i a = .ok (.ok ()) ↔ a.Fits := by
  simp only [checkAccess, Checking.bind_passes, Checking.require_passes, Access.Fits,
    beq_iff_eq, exists_and_left, exists_const]
  refine and_congr_right fun _ => ?_
  by_cases hm : a.kind.hasWriteMask = true
  · simp [hm, Checking.bind_passes, Checking.lift_passes, Checking.require_passes]
  · simp [hm, Checking.pure_passes]

theorem checkInstr_passes {b : BlockId} {i : InstrId} (hf : f.Defined)
    (h : f.checkInstr b i = .ok (.ok ())) :
    (∀ vs, f.srcs? i = some vs → ∀ v ∈ vs, f.Live v) ∧
      ∀ body, f.body? i = some body → f.BodyFits (f.destShape? i) body := by
  simp only [checkInstr, Checking.bind_passes, Checking.lift_passes, instr_eq_ok,
    Checking.forM_passes] at h
  obtain ⟨x, hx, _, -, _, -, _, hsrc, h⟩ := h
  refine ⟨?_, ?_⟩
  · intro vs hvs v hv
    obtain rfl : x.body.srcs = vs := by simpa [srcs?, hx] using hvs
    obtain ⟨s, hs⟩ := List.getElem?_of_mem hv
    exact checkSource_passes (hsrc (v, s) (List.mem_zipIdx_iff_getElem?.mpr hs))
  · intro body hbody
    obtain rfl : x.body = body := by simpa [body?, hx] using hbody
    have hlast : (match x.body with
        | .alu a => f.checkAlu i a
        | .access a => checkAccess i a
        | _ => pure ()) = .ok (.ok ()) := by
      cases hd : x.dest with
      | none =>
        simp only [hd] at h
        exact h
      | some v =>
        simp only [hd, Checking.bind_passes, Checking.require_passes] at h
        obtain ⟨_, -, _, -, h⟩ := h
        exact h
    cases hb : x.body with
    | alu a =>
      rw [hb] at hlast
      simp only [checkAlu, Checking.bind_passes, Checking.require_passes,
        Checking.forM_passes] at hlast
      obtain ⟨_, harity, hlanes⟩ := hlast
      refine ⟨by simpa using harity, fun slot o ho => ?_⟩
      exact checkLanes_passes hf hx hb (hlanes (o, slot) (List.mem_zipIdx_iff_getElem?.mpr ho))
    | access a =>
      rw [hb] at hlast
      exact checkAccess_passes.mp hlast
    | _ => trivial

theorem verified_of_blocks (hf : f.Linked)
    (hblocks : ∀ b ∈ f.layout, f.checkBlock b = .ok (.ok ())) : f.Verified := by
  have hblock : ∀ b x, f.blocks.get? b = some x →
      (∀ i ∈ x.instrs, f.checkInstr b i = .ok (.ok ())) ∧ f.checkTerminator b = .ok (.ok ()) := by
    intro b x hx
    have hb := hblocks b ((Arena.mem_ids _ _).mpr (Arena.get?_eq_some_lt hx))
    simp only [checkBlock, Checking.bind_passes, Checking.lift_passes, block_eq_ok,
      Checking.forM_passes] at hb
    obtain ⟨y, hy, _, hi, ht⟩ := hb
    obtain rfl : x = y := by simpa [hx] using hy
    exact ⟨hi, ht⟩
  have hinstr : ∀ i b, f.home? i = some b → f.checkInstr b i = .ok (.ok ()) := by
    intro i b hi
    have hmem := hf.placed.mem_iff.mpr hi
    cases hx : f.blocks.get? b with
    | none => simp [blockInstrs, hx] at hmem
    | some x => exact (hblock b x hx).1 i (by simpa [blockInstrs, hx] using hmem)
  refine ⟨⟨?_, ?_⟩, ?_⟩
  · intro u v huv
    obtain ⟨x, hx, hr, hv⟩ := reads?_eq_some.mp huv
    have hi := hinstr u.instr x.block (home?_eq_some.mpr ⟨x, hx, hr, rfl⟩)
    exact (checkInstr_passes hf.defined hi).1 x.body.srcs (by simp [srcs?, hx]) v
      (List.mem_of_getElem? hv)
  · intro b v hv
    have hx := hv
    rw [condition?_eq, Option.bind_eq_some_iff] at hx
    obtain ⟨x, hx, -⟩ := hx
    exact checkTerminator_passes (hblock b x hx).2 hv
  · intro i b body hi
    exact (checkInstr_passes hf.defined (hinstr i b hi)).2 body

theorem verified_of_check (hf : f.Linked) (h : f.check = .ok (.ok ())) : f.Verified := by
  simp only [check, Checking.bind_passes, Checking.forM_passes] at h
  obtain ⟨_, hblocks, -⟩ := h
  exact verified_of_blocks hf hblocks

theorem Verified.small (hv : f.Verified) (hf : f.Linked) : f.Small := by
  intro i vs hvs
  obtain ⟨x, hx, rfl⟩ := Option.map_eq_some_iff.mp hvs
  have hbody : f.body? i = some x.body := by simp [body?, hx]
  cases hr : x.removed with
  | true => exact hf.sourced.removed i _ (by simp [home?, hx, hr]) hvs
  | false =>
    have hhome : f.home? i = some x.block := home?_eq_some.mpr ⟨x, hx, hr, rfl⟩
    cases hb : x.body with
    | alu a =>
      have hlen := (hv.alu i _ a hhome (by rw [hbody, hb])).1
      have := AluOp.arity_le a.op
      simp only [Body.srcs, List.length_map]
      omega
    | access a =>
      have hlen := hv.access i _ a hhome (by rw [hbody, hb])
      have := Intrinsic.arity_le a.kind
      simp only [Body.srcs]
      omega
    | deref d =>
      obtain ⟨step, mode, type⟩ := d
      cases step <;> simp [Body.srcs]
    | const l => simp [Body.srcs]
    | undef => simp [Body.srcs]

end Function

theorem Shader.verified_of_check {s : Shader} (hr : ∀ f ∈ s.functions, f.Reached)
    (h : s.check = .ok (.ok ())) : ∀ f ∈ s.functions, f.Verified := by
  intro f hf
  exact Function.verified_of_check (hr f hf).linked (Checking.forM_passes.mp h f hf)

end ShaderSSA
