import ShaderSSA.Proofs.CheckAnswers
import ShaderSSA.Proofs.Laying
import ShaderSSA.Proofs.Walking

/-! The widths of sources. A builder counts the sources of an opcode and lets every width through;
what it has put in passes the checker exactly when the sources of several lanes have the lanes that
are read of them. -/

namespace ShaderSSA

namespace AluOp

variable {op : AluOp} {widths : List Nat}

/-- The sources of several lanes are equally wide where the opcode works lane by lane, and have the
lanes that it reads where it does not. -/
def Accepts (op : AluOp) (widths : List Nat) : Prop :=
  if op.isLaneWise then ∀ w ∈ widths, ∀ w' ∈ widths, w = 1 ∨ w' = 1 ∨ w = w'
  else ∀ p ∈ widths.zip op.shape.sourceWidths, p.1 = 1 ∨ p.2 ≤ p.1

instance (op : AluOp) (widths : List Nat) : Decidable (op.Accepts widths) := by
  unfold Accepts
  infer_instance

theorem resultWidth_laneWise (h : op.isLaneWise) (hlen : widths.length = op.arity) :
    Build.resultWidth op widths = widths.max?.getD 1 := by
  have hresult : op.shape.resultWidth = 0 := by
    revert h
    cases op <;> decide
  have hsources : op.shape.sourceWidths = List.replicate 4 0 := by
    revert h
    cases op <;> decide
  have hle : widths.length ≤ (List.replicate 4 0).length := by
    rw [hlen, List.length_replicate]
    exact op.arity_le
  have hall : ∀ p ∈ widths.zip (List.replicate 4 0), (p.2 == 0) = true := by
    intro p hp
    simpa using List.eq_of_mem_replicate (List.of_mem_zip hp).2
  rw [Build.resultWidth, if_neg (by simp [hresult]), hsources, List.filter_eq_self.mpr hall,
    List.map_fst_zip hle]

theorem resultWidth_fixed (h : op.isLaneWise = false) (widths : List Nat) :
    Build.resultWidth op widths = op.shape.resultWidth ∧
      1 ≤ op.shape.resultWidth ∧ op.shape.resultWidth ≤ 4 := by
  have hbounds : 1 ≤ op.shape.resultWidth ∧ op.shape.resultWidth ≤ 4 := by
    revert h
    cases op <;> decide
  exact ⟨if_pos (by omega), hbounds⟩

theorem readWidth?_fixed (h : op.isLaneWise = false) {slot : Nat} (hslot : slot < op.arity)
    (dest : Option Shape) : op.readWidth? dest slot = op.shape.sourceWidths[slot]? := by
  have hne : ∀ n ∈ op.shape.sourceWidths.take op.arity, n ≠ 0 := by
    revert h
    clear hslot
    cases op <;> decide
  cases hn : op.shape.sourceWidths[slot]? with
  | none => simp [readWidth?, hn]
  | some n =>
    have hmem : n ∈ op.shape.sourceWidths.take op.arity :=
      List.mem_of_getElem? ((List.getElem?_take_of_lt hslot).trans hn)
    simp [readWidth?, hn, hne n hmem]

theorem resultWidth_bounds (hlen : widths.length = op.arity) (hw : ∀ w ∈ widths, 1 ≤ w ∧ w ≤ 4) :
    1 ≤ Build.resultWidth op widths ∧ Build.resultWidth op widths ≤ 4 := by
  cases h : op.isLaneWise with
  | false =>
    rw [(resultWidth_fixed h widths).1]
    exact (resultWidth_fixed h widths).2
  | true =>
    rw [resultWidth_laneWise h hlen]
    cases hmax : widths.max? with
    | none => simp
    | some m => exact hw m (List.max?_mem hmax)

/-- Widths are accepted when every source is one lane wide or has the lanes that are read of it. -/
theorem accepts_iff (hlen : widths.length = op.arity) (hw : ∀ w ∈ widths, 1 ≤ w) (bits : Nat) :
    op.Accepts widths ↔ ∀ slot w n, widths[slot]? = some w →
      op.readWidth? (some ⟨Build.resultWidth op widths, bits⟩) slot = some n → w = 1 ∨ n ≤ w := by
  have hlt : ∀ {slot w : Nat}, widths[slot]? = some w → slot < op.arity := by
    intro slot w h
    exact hlen ▸ (List.getElem?_eq_some_iff.mp h).1
  cases h : op.isLaneWise with
  | false =>
    simp only [Accepts, h, Bool.false_eq_true, if_false]
    constructor
    · intro hall slot w n hslot hn
      rw [readWidth?_fixed h (hlt hslot)] at hn
      exact hall (w, n) (List.mem_of_getElem? (List.getElem?_zip_eq_some.mpr ⟨hslot, hn⟩))
    · rintro hall ⟨w, n⟩ hp
      obtain ⟨slot, hp⟩ := List.mem_iff_getElem?.mp hp
      obtain ⟨hslot, hn⟩ := List.getElem?_zip_eq_some.mp hp
      exact hall slot w n hslot (by rw [readWidth?_fixed h (hlt hslot), hn])
  | true =>
    simp only [Accepts, h, if_true, resultWidth_laneWise h hlen]
    constructor
    · intro hall slot w n hslot hn
      rw [readWidth?_laneWise h (hlt hslot), Option.some.injEq] at hn
      have hmem := List.mem_of_getElem? hslot
      cases hmax : widths.max? with
      | none => simp [List.max?_eq_none_iff.mp hmax] at hmem
      | some m =>
        have hpos := hw w hmem
        simp only [hmax, Option.getD_some] at hn
        rcases hall w hmem m (List.max?_mem hmax) with hone | hone | heq <;> omega
    · intro hall w hmem w' hmem'
      have hread : ∀ w ∈ widths, w = 1 ∨ widths.max?.getD 1 ≤ w := by
        intro w hmem
        obtain ⟨slot, hslot⟩ := List.mem_iff_getElem?.mp hmem
        exact hall slot w _ hslot (readWidth?_laneWise h (hlt hslot) _)
      have hle : w ≤ widths.max?.getD 1 := List.le_max?_getD_of_mem hmem
      have hle' : w' ≤ widths.max?.getD 1 := List.le_max?_getD_of_mem hmem'
      rcases hread w hmem with hone | hm
      · exact .inl hone
      · rcases hread w' hmem' with hone | hm'
        · exact .inr (.inl hone)
        · exact .inr (.inr (by omega))

end AluOp

theorem Build.broadcast_lanes {v : ValueId} {w n : Nat} (h4 : n ≤ 4) :
    (broadcast v w).swizzle.toList.take n = if w = 1 then List.replicate n 0 else List.range n := by
  unfold broadcast
  split
  · have hzero : (Vector.replicate 4 0).toList = List.replicate 4 0 := by decide
    simp only [Operand.channel, hzero, List.take_replicate, Nat.min_eq_left h4]
  · have hid : Swizzle.identity.toList = List.range 4 := by decide
    simp [Operand.whole, hid, List.take_range, h4]

namespace Function

variable {f : Function} {op : AluOp} {srcs : List ValueId} {v : ValueId}

def widthOf (f : Function) (v : ValueId) : Nat := ((f.shape? v).map (·.width)).getD 0

/-- What the builder puts in for these sources. -/
def aluOf (f : Function) (op : AluOp) (srcs : List ValueId) : Alu :=
  ⟨op, srcs.map fun v => Build.broadcast v (f.widthOf v)⟩

def aluShape (f : Function) (op : AluOp) (srcs : List ValueId) : Shape :=
  ⟨Build.resultWidth op (srcs.map f.widthOf), ((srcs.getLast?.bind f.shape?).map (·.bits)).getD 32⟩

theorem widthOf_eq {s : Shape} (h : f.shape? v = some s) : f.widthOf v = s.width := by
  simp [widthOf, h]

theorem value_broadcast (v : ValueId) (w : Nat) : (Build.broadcast v w).value = v := by
  unfold Build.broadcast
  split <;> rfl

theorem srcs_aluOf (f : Function) (op : AluOp) (srcs : List ValueId) :
    (Body.alu (f.aluOf op srcs)).srcs = srcs := by
  simp [Body.srcs, aluOf, Function.comp_def, value_broadcast]

end Function

namespace Build

variable {f g : Function} {c c' : Cursor} {op : AluOp} {srcs : List ValueId} {v : ValueId}

theorem mapM_shape_run (h : ∀ v ∈ srcs, f.hasValue v) :
    (srcs.mapM fun v => return (← shape v).width : Build (List Nat)).run ⟨f, c⟩ =
      .ok (srcs.map f.widthOf, ⟨f, c⟩) := by
  induction srcs with
  | nil => rfl
  | cons v srcs ih =>
    rw [List.forall_mem_cons] at h
    obtain ⟨s, hs⟩ := Function.exists_shape h.1
    simp only [List.mapM_cons, StateT.run_bind, shape_run hs, ok_bind, StateT.run_pure, pure_bind,
      ih h.2, List.map_cons, Function.widthOf_eq hs]
    rfl

theorem alu_run (h : ∀ v ∈ srcs, f.hasValue v) (hlen : srcs.length = op.arity) :
    (alu op srcs).run ⟨f, c⟩ =
      (insertValue (.alu (f.aluOf op srcs)) (f.aluShape op srcs)).run ⟨f, c⟩ := by
  have hrequire : Checked.require (srcs.length == op.arity) (.aluArity op) = .ok () := by
    simp [hlen]
  have hoperands : List.zipWith broadcast srcs (srcs.map f.widthOf) = (f.aluOf op srcs).srcs := by
    rw [List.zipWith_map_right, List.zipWith_self]
    rfl
  rw [alu, hrequire, lift_ok_bind, StateT.run_bind, mapM_shape_run h, ok_bind]
  simp only [hoperands, aluSwizzled, Function.aluOf, List.getLast?_map, Function.aluShape]
  cases hlast : srcs.getLast? with
  | none => rfl
  | some v =>
    obtain ⟨s, hs⟩ := Function.exists_shape (h v (List.mem_of_getLast? hlast))
    simp only [Option.map_some, Function.value_broadcast, StateT.run_bind, shape_run hs, ok_bind,
      pure_bind, Option.bind_some, hs, Option.getD_some]

theorem alu_run_miscounted (hlen : srcs.length ≠ op.arity) :
    (alu op srcs).run ⟨f, c⟩ = .error (.breach (.aluArity op)) := by
  have hrequire : Checked.require (srcs.length == op.arity) (.aluArity op) =
      .error (.breach (.aluArity op)) := by
    simp [Checked.require, Checked.breach, hlen]
  rw [alu, hrequire]
  rfl

theorem insertValue_eq_ok {body : Body} {shape : Shape} :
    (insertValue body shape).run ⟨f, c⟩ = .ok (v, ⟨g, c'⟩) ↔
      ∃ n, f.insert c body (some shape) = .ok (n, g) ∧ v = ⟨f.values.size⟩ ∧ c' = .after n := by
  have hrun : ∀ {n : InstrId} {g : Function}, f.insert c body (some shape) = .ok (n, g) →
      (insertValue body shape).run ⟨f, c⟩ = .ok (⟨f.values.size⟩, ⟨g, .after n⟩) := by
    intro n g hi
    refine insertValue_run (insert_run hi) ?_
    obtain ⟨_, _, -, -, -, -, rfl, rfl⟩ := Function.insert_eq_ok.mp hi
    simp [Function.dest?_inserted]
  constructor
  · intro h
    have hv := h
    rw [insertValue, StateT.run_bind, bind_eq_ok] at h
    obtain ⟨⟨n, b⟩, hi, -⟩ := h
    have hins := (insert_of_run hi).1
    rw [hrun hins] at hv
    cases hv
    exact ⟨n, hins, rfl, rfl⟩
  · rintro ⟨n, hi, rfl, rfl⟩
    exact hrun hi

end Build

namespace Function

open Checking

variable {f g : Function} {c : Cursor} {op : AluOp} {srcs : List ValueId} {v : ValueId}
  {i j : InstrId} {b : BlockId} {pos slot : Nat} {body : Body} {dest : Option Shape}

/-- The cursor is in a block. -/
def Takes (f : Function) : Cursor → Prop
  | .start b | .stop b => b ∈ f.layout
  | .before i | .after i => ∃ b, f.home? i = some b

theorem position_iff (hf : f.Placed) : (∃ b, f.home? i = some b) ↔
    ∃ b pos, f.position i = .ok (b, pos) ∧ ∃ x, f.blocks.get? b = some x := by
  constructor
  · rintro ⟨b, hi⟩
    obtain ⟨before, after, hsplit⟩ := List.append_of_mem (hf.mem_iff.mpr hi)
    have hpos := position_of_split hf hsplit
    obtain ⟨-, y, -, hy, -⟩ := position_eq_ok.mp hpos
    exact ⟨b, before.length, hpos, y, hy⟩
  · rintro ⟨b, pos, hpos, -⟩
    obtain ⟨before, after, hsplit, -⟩ := position_split hpos
    exact ⟨b, hf.mem_iff.mp (by simp [hsplit])⟩

theorem takes_iff (hf : f.Placed) : f.Takes c ↔
    ∃ b pos, f.resolve c = .ok (b, pos) ∧ ∃ x, f.blocks.get? b = some x := by
  have hlayout : ∀ {b}, b ∈ f.layout ↔ ∃ x, f.blocks.get? b = some x := by
    intro b
    rw [layout, Arena.mem_ids, ← Option.isSome_iff_exists, Option.isSome_iff_ne_none, ne_eq,
      Arena.get?_eq_none_iff, not_le]
  cases c with
  | start b => simp [Takes, resolve, hlayout]
  | stop b =>
    simp only [Takes, resolve, hlayout, bind_eq_ok, block_eq_ok, pure_eq_ok]
    constructor
    · rintro ⟨x, hx⟩
      exact ⟨b, _, ⟨x, hx, rfl⟩, x, hx⟩
    · rintro ⟨_, _, ⟨x, hx, -⟩, -⟩
      exact ⟨x, hx⟩
  | before i => exact position_iff hf
  | after i =>
    simp only [Takes, resolve, bind_eq_ok, pure_eq_ok, position_iff hf]
    constructor
    · rintro ⟨b, pos, hpos, hb⟩
      exact ⟨b, pos + 1, ⟨(b, pos), hpos, rfl⟩, hb⟩
    · rintro ⟨b, _, ⟨⟨_, pos⟩, hpos, ⟨rfl, -⟩⟩, hb⟩
      exact ⟨_, pos, hpos, hb⟩

theorem build_alu_eq_ok (hsrc : ∀ v ∈ srcs, f.hasValue v) :
    f.build c (.alu op srcs) = .ok (v, g) ↔ srcs.length = op.arity ∧ v = ⟨f.values.size⟩ ∧
      ∃ n, f.insert c (.alu (f.aluOf op srcs)) (some (f.aluShape op srcs)) = .ok (n, g) := by
  by_cases hlen : srcs.length = op.arity
  · rw [Function.build, Build.alu_run hsrc hlen, bind_eq_ok]
    constructor
    · rintro ⟨⟨w, h, c'⟩, hrun, heq⟩
      obtain ⟨rfl, rfl⟩ : w = v ∧ h = g := by simpa using heq
      obtain ⟨n, hi, rfl, -⟩ := Build.insertValue_eq_ok.mp hrun
      exact ⟨hlen, rfl, n, hi⟩
    · rintro ⟨-, rfl, n, hi⟩
      exact ⟨_, Build.insertValue_eq_ok.mpr ⟨n, hi, rfl, rfl⟩, rfl⟩
  · rw [Function.build, Build.alu_run_miscounted hlen]
    constructor
    · intro h
      cases h
    · intro h
      exact absurd h.1 hlen

theorem Live.inserted (h : f.Live v) : (f.inserted b pos body dest).Live v := by
  have hne := ne_of_hasValue h.hasValue
  obtain ⟨i, d, hs, hi⟩ := h
  exact ⟨i, d, by rw [source?_inserted, if_neg hne, hs],
    by rw [home?_inserted, if_neg (ne_of_home hi), hi]⟩

theorem destShape?_inserted (hf : f.Defined) (j : InstrId) :
    (f.inserted b pos body dest).destShape? j =
      if j = ⟨f.instrs.size⟩ then dest else f.destShape? j := by
  simp only [destShape?, dest?_inserted]
  by_cases hj : j = ⟨f.instrs.size⟩
  · cases dest <;> simp [hj, shape?_inserted]
  · simp only [if_neg hj]
    cases hd : f.dest? j with
    | none => rfl
    | some v =>
      obtain ⟨x, hx, -⟩ := Option.map_eq_some_iff.mp ((hf.iff j v).mp hd)
      simp [shape?_inserted, ne_of_hasValue (hasValue_iff.mpr ⟨x, hx⟩)]

theorem InOrder.inserted (h : f.InOrder j) (hf : f.Defined) (hj : j ≠ ⟨f.instrs.size⟩) :
    (f.inserted b pos body dest).InOrder j := by
  refine ⟨fun s v hread => ?_, fun x hx => ?_⟩
  · rw [reads?_inserted, if_neg hj] at hread
    exact (h.live s v hread).inserted
  · rw [body?_inserted, if_neg hj] at hx
    rw [destShape?_inserted hf, if_neg hj]
    refine (h.fits x hx).mono fun v s hs => ?_
    rw [shape?_inserted, if_neg (ne_of_hasValue (hasValue_of_shape hs)), hs]

theorem checkLanes_aluOf {x : Instr} {n : Nat} (hf : f.Defined) (hx : f.instrs.get? i = some x)
    (hb : x.body = .alu (f.aluOf op srcs)) (hv : f.hasValue v)
    (hn : op.readWidth? (f.destShape? i) slot = some n) (h4 : n ≤ 4) :
    f.checkLanes i slot (Build.broadcast v (f.widthOf v)) =
      if f.widthOf v = 1 ∨ n ≤ f.widthOf v then .ok (.ok ())
      else .ok (.error (.laneOutOfRange i slot (f.widthOf v) (f.widthOf v))) := by
  obtain ⟨s, hs⟩ := exists_shape hv
  have hw := widthOf_eq hs
  have hvalue : f.shape? (Build.broadcast v (f.widthOf v)).value = some s := by
    rw [value_broadcast, hs]
  rw [checkLanes_eq hf hx hb hn hvalue h4, Build.broadcast_lanes h4, ← hw]
  by_cases hone : f.widthOf v = 1
  · have hfind : (List.replicate n 0).find? (f.widthOf v ≤ ·) = none := by
      refine List.find?_eq_none.mpr fun k hk => ?_
      simp [List.eq_of_mem_replicate hk, hone]
    rw [if_pos hone, hfind, if_pos (.inl hone)]
    rfl
  · rw [if_neg hone]
    by_cases hle : n ≤ f.widthOf v
    · have hfind : (List.range n).find? (f.widthOf v ≤ ·) = none := by
        refine List.find?_eq_none.mpr fun k hk => ?_
        have := List.mem_range.mp hk
        simp only [decide_eq_true_eq]
        omega
      rw [hfind, if_pos (.inr hle)]
      rfl
    · have hfind : (List.range n).find? (f.widthOf v ≤ ·) = some (f.widthOf v) := by
        refine List.find?_range_eq_some.mpr ⟨by simp, List.mem_range.mpr (by omega), fun j hj => ?_⟩
        simp only [Bool.not_eq_true', decide_eq_false_iff_not]
        omega
      rw [hfind, if_neg (by simp [hone, hle])]
      rfl

theorem widthOf_bounds (hf : f.Defined) (hsrc : ∀ v ∈ srcs, f.hasValue v) :
    ∀ w ∈ srcs.map f.widthOf, 1 ≤ w ∧ w ≤ 4 := by
  intro w hw
  obtain ⟨v, hv, rfl⟩ := List.mem_map.mp hw
  obtain ⟨s, hs⟩ := exists_shape (hsrc v hv)
  rw [widthOf_eq hs]
  exact hf.width v s hs

theorem checkAlu_aluOf {x : Instr} (hf : f.Linked) (hx : f.instrs.get? i = some x)
    (hb : x.body = .alu (f.aluOf op srcs)) (hd : f.destShape? i = some (f.aluShape op srcs))
    (hsrc : ∀ v ∈ srcs, f.hasValue v) (hlen : srcs.length = op.arity) :
    (op.Accepts (srcs.map f.widthOf) → f.checkAlu i (f.aluOf op srcs) = .ok (.ok ())) ∧
    (¬ op.Accepts (srcs.map f.widthOf) → ∃ slot w, (srcs.map f.widthOf)[slot]? = some w ∧ w ≠ 1 ∧
      f.checkAlu i (f.aluOf op srcs) = .ok (.error (.laneOutOfRange i slot w w))) := by
  have hbounds := widthOf_bounds hf.defined hsrc
  have hlen' : (srcs.map f.widthOf).length = op.arity := by rw [List.length_map, hlen]
  have haccepts := AluOp.accepts_iff hlen' (fun w hw => (hbounds w hw).1) (f.aluShape op srcs).bits
  have hresult := (AluOp.resultWidth_bounds hlen' hbounds).2
  have hlanes : ∀ {slot v}, srcs[slot]? = some v → ∃ n,
      op.readWidth? (some (f.aluShape op srcs)) slot = some n ∧
      f.checkLanes i slot (Build.broadcast v (f.widthOf v)) =
        if f.widthOf v = 1 ∨ n ≤ f.widthOf v then .ok (.ok ())
        else .ok (.error (.laneOutOfRange i slot (f.widthOf v) (f.widthOf v))) := by
    intro slot v hv
    have hslot : slot < op.arity := hlen ▸ (List.getElem?_eq_some_iff.mp hv).1
    obtain ⟨n, hn, h4⟩ : ∃ n, op.readWidth? (some (f.aluShape op srcs)) slot = some n ∧ n ≤ 4 :=
      op.readWidth?_known hslot (by simpa [aluShape] using hresult)
    exact ⟨n, hn, checkLanes_aluOf hf.defined hx hb (hsrc v (List.mem_of_getElem? hv))
      (by rw [hd, hn]) h4⟩
  have hmem : ∀ {p}, p ∈ (f.aluOf op srcs).srcs.zipIdx ↔
      ∃ v, srcs[p.2]? = some v ∧ Build.broadcast v (f.widthOf v) = p.1 := by
    simp [List.mem_zipIdx_iff_getElem?, aluOf]
  have hloop : f.checkAlu i (f.aluOf op srcs) =
      (f.aluOf op srcs).srcs.zipIdx.forM fun p => f.checkLanes i p.2 p.1 := by
    rw [checkAlu, bind_of_passes (a := ()) (by simp [require_passes, aluOf, hlen])]
  constructor
  · intro hacc
    rw [hloop, forM_passes]
    intro p hp
    obtain ⟨v, hv, hp⟩ := hmem.mp hp
    obtain ⟨n, hn, hcheck⟩ := hlanes hv
    rw [← hp, hcheck, if_pos (haccepts.mp hacc p.2 (f.widthOf v) n (by simp [hv]) hn)]
  · intro hacc
    have hstops : f.checkAlu i (f.aluOf op srcs) ≠ .ok (.ok ()) := by
      rw [hloop, ne_eq, forM_passes]
      intro hall
      refine hacc (haccepts.mpr fun slot w n hw hn => ?_)
      obtain ⟨v, hv, rfl⟩ : ∃ v, srcs[slot]? = some v ∧ f.widthOf v = w := by simpa using hw
      obtain ⟨m, hm, hcheck⟩ := hlanes hv
      obtain rfl : m = n := Option.some.inj (hm.symm.trans hn)
      have hpass := hall (Build.broadcast v (f.widthOf v), slot) (hmem.mpr ⟨v, hv, rfl⟩)
      rw [hpass] at hcheck
      split at hcheck
      · assumption
      · cases hcheck
    obtain ⟨done, p, rest, hsplit, -, hp⟩ := (forM_stops hstops).mp hloop.symm
    obtain ⟨v, hv, hpv⟩ := hmem.mp (by simp [hsplit] : p ∈ _)
    obtain ⟨n, hn, hcheck⟩ := hlanes hv
    rw [hpv, hp] at hcheck
    split at hcheck
    · exact absurd hcheck hstops
    · rename_i hnarrow
      exact ⟨p.2, f.widthOf v, by simp [hv], fun hone => hnarrow (.inl hone), hcheck⟩

theorem insert_alu_iff (hf : f.Linked) (hsrc : ∀ v ∈ srcs, f.hasValue v)
    (hlen : srcs.length = op.arity) :
    (∃ n g, f.insert c (.alu (f.aluOf op srcs)) (some (f.aluShape op srcs)) = .ok (n, g)) ↔
      f.Takes c := by
  simp only [insert_eq_ok, takes_iff hf.placed, srcs_aluOf]
  constructor
  · rintro ⟨n, g, b, pos, hres, -, -, hb, -⟩
    exact ⟨b, pos, hres, hb⟩
  · rintro ⟨b, pos, hres, hb⟩
    refine ⟨_, _, b, pos, hres, hsrc, fun s hs => ?_, hb, rfl, rfl⟩
    cases hs
    exact AluOp.resultWidth_bounds (by rw [List.length_map, hlen])
      (widthOf_bounds hf.defined hsrc)

theorem aluOf_inserted (op : AluOp) (b : BlockId) (pos : Nat) (body : Body) (dest : Option Shape)
    (hsrc : ∀ v ∈ srcs, f.hasValue v) :
    srcs.map (f.inserted b pos body dest).widthOf = srcs.map f.widthOf ∧
      (f.inserted b pos body dest).aluOf op srcs = f.aluOf op srcs ∧
      (f.inserted b pos body dest).aluShape op srcs = f.aluShape op srcs := by
  have hshape : ∀ v ∈ srcs, (f.inserted b pos body dest).shape? v = f.shape? v := by
    intro v hv
    rw [shape?_inserted, if_neg (ne_of_hasValue (hsrc v hv))]
  have hwidths : srcs.map (f.inserted b pos body dest).widthOf = srcs.map f.widthOf :=
    List.map_congr_left fun v hv => by rw [widthOf, hshape v hv, widthOf]
  refine ⟨hwidths, ?_, ?_⟩
  · rw [aluOf, aluOf]
    exact congrArg _ (List.map_congr_left fun v hv => by rw [widthOf, hshape v hv, widthOf])
  · rw [aluShape, aluShape, hwidths]
    cases hlast : srcs.getLast? with
    | none => rfl
    | some v => rw [Option.bind_some, Option.bind_some, hshape v (List.mem_of_getLast? hlast)]

/-- In a function that passes the check, what is put in for live sources is found in order exactly
where their widths are accepted. -/
theorem check_inserted_alu {n : InstrId} (hf : f.Tidy) (hv : f.Verified)
    (hsrc : ∀ v ∈ srcs, f.Live v) (hlen : srcs.length = op.arity)
    (h : f.insert c (.alu (f.aluOf op srcs)) (some (f.aluShape op srcs)) = .ok (n, g)) :
    g.body? n = some (.alu (f.aluOf op srcs)) ∧
    (op.Accepts (srcs.map f.widthOf) → g.check = .ok (.ok ())) ∧
    (¬ op.Accepts (srcs.map f.widthOf) → ∃ slot w, (srcs.map f.widthOf)[slot]? = some w ∧ w ≠ 1 ∧
      g.check = .ok (.error (.laneOutOfRange n slot w w))) := by
  have hsmall : (Edit.insert c (.alu (f.aluOf op srcs)) (some (f.aluShape op srcs))).Small := by
    have harity := op.arity_le
    rw [Edit.Small, srcs_aluOf]
    omega
  have hg := hf.apply hsmall (apply_insert h)
  obtain ⟨b, pos, -, hhas, -, -, rfl, rfl⟩ := insert_eq_ok.mp h
  rw [srcs_aluOf] at hhas
  obtain ⟨hwidths, halu, hshape⟩ := aluOf_inserted op b pos (.alu (f.aluOf op srcs))
    (some (f.aluShape op srcs)) hhas
  set g := f.inserted b pos (.alu (f.aluOf op srcs)) (some (f.aluShape op srcs)) with hgdef
  have hbody : g.body? ⟨f.instrs.size⟩ = some (.alu (f.aluOf op srcs)) := by
    rw [body?_inserted, if_pos rfl]
  have hhome : g.home? ⟨f.instrs.size⟩ = some b := by rw [home?_inserted, if_pos rfl]
  have hothers : ∀ j d, g.home? j = some d → j ≠ ⟨f.instrs.size⟩ → g.InOrder j := by
    intro j d hj hne
    rw [home?_inserted, if_neg hne] at hj
    exact (hv.inOrder hj).inserted hf.linked.defined hne
  have hcond : ∀ d v, g.condition? d = some v → g.Live v := by
    intro d v hd
    rw [condition?, terminator?_inserted] at hd
    exact (hv.closed.condition d v hd).inserted
  have hlive : ∀ s v, g.reads? ⟨⟨f.instrs.size⟩, s⟩ = some v → g.Live v := by
    intro s v hread
    rw [reads?_inserted, if_pos rfl, srcs_aluOf] at hread
    exact (hsrc v (List.mem_of_getElem? hread)).inserted
  obtain ⟨x, hx, hr, rfl⟩ := home?_eq_some.mp hhome
  have hxb : x.body = .alu (g.aluOf op srcs) := by
    rw [halu]
    simpa [body?, hx] using hbody
  have hcheck : g.check = g.checkAlu ⟨f.instrs.size⟩ (g.aluOf op srcs) := by
    rw [check_eq_checkInstr hg hhome hcond hothers, checkInstr_eq hg hx hr hlive, hxb, checkBody]
  have hd : g.destShape? ⟨f.instrs.size⟩ = some (g.aluShape op srcs) := by
    rw [hshape, destShape?_inserted hf.linked.defined, if_pos rfl]
  have hhas' : ∀ v ∈ srcs, g.hasValue v := fun v hv => (hsrc v hv).inserted.hasValue
  have hresult := checkAlu_aluOf hg.linked hx hxb hd hhas' hlen
  rw [hwidths, ← hcheck] at hresult
  exact ⟨hbody, hresult⟩

/-- Sources are counted, and their widths are not: whatever they are, the instruction goes in
wherever the cursor is in a block. The checker finds it in order where the widths are accepted, and
otherwise finds the first missing lane of some source. -/
theorem Attained.check_build_alu (hf : f.Attained) (hc : f.check = .ok (.ok ())) (c : Cursor)
    (op : AluOp) (hsrc : ∀ v ∈ srcs, f.Live v) :
    (srcs.length ≠ op.arity → f.build c (.alu op srcs) = .error (.breach (.aluArity op))) ∧
    ((∃ v g, f.build c (.alu op srcs) = .ok (v, g)) ↔ srcs.length = op.arity ∧ f.Takes c) ∧
    ∀ v g, f.build c (.alu op srcs) = .ok (v, g) →
      g.body? ⟨f.instrs.size⟩ = some (.alu (f.aluOf op srcs)) ∧
      (op.Accepts (srcs.map f.widthOf) → g.check = .ok (.ok ())) ∧
      (¬ op.Accepts (srcs.map f.widthOf) → ∃ slot w, (srcs.map f.widthOf)[slot]? = some w ∧
        w ≠ 1 ∧ g.check = .ok (.error (.laneOutOfRange ⟨f.instrs.size⟩ slot w w))) := by
  have hlinked := hf.reached.linked
  have hv := verified_of_check hlinked hc
  have htidy : f.Tidy := ⟨hf.reached, hv.small hlinked⟩
  have hhas : ∀ v ∈ srcs, f.hasValue v := fun v hv => (hsrc v hv).hasValue
  refine ⟨fun hlen => ?_, ?_, fun v g h => ?_⟩
  · rw [build, Build.alu_run_miscounted hlen]
    rfl
  · constructor
    · rintro ⟨v, g, h⟩
      obtain ⟨hlen, -, n, hi⟩ := (build_alu_eq_ok hhas).mp h
      exact ⟨hlen, (insert_alu_iff hlinked hhas hlen).mp ⟨n, g, hi⟩⟩
    · rintro ⟨hlen, hc⟩
      obtain ⟨n, g, hi⟩ := (insert_alu_iff hlinked hhas hlen).mpr hc
      exact ⟨_, g, (build_alu_eq_ok hhas).mpr ⟨hlen, rfl, n, hi⟩⟩
  · obtain ⟨hlen, -, n, hi⟩ := (build_alu_eq_ok hhas).mp h
    obtain ⟨_, _, -, -, -, -, rfl, -⟩ := insert_eq_ok.mp hi
    exact check_inserted_alu htidy hv hsrc hlen hi

/-- A value of three lanes and one of two. -/
def mixedWidths : List Operation :=
  [.edit (.insert (.stop ⟨0⟩) (.const [1, 2, 3]) (some ⟨3, 32⟩)),
    .edit (.insert (.stop ⟨0⟩) (.const [1, 2]) (some ⟨2, 32⟩))]

theorem mixedWidths_check_build_alu : (Operation.outcome mixedWidths).Attained ∧
    (Operation.outcome mixedWidths).check = .ok (.ok ()) ∧
    ∃ v g, (Operation.outcome mixedWidths).build (.stop ⟨0⟩) (.alu .fadd [⟨0⟩, ⟨1⟩]) = .ok (v, g) ∧
      ∃ slot w, w ≠ 1 ∧ g.check = .ok (.error (.laneOutOfRange ⟨2⟩ slot w w)) := by
  have hf := Attained.outcome mixedWidths
  have hc : (Operation.outcome mixedWidths).check = .ok (.ok ()) := rfl
  have hsrc : ∀ v ∈ [⟨0⟩, ⟨1⟩], (Operation.outcome mixedWidths).Live v := by
    rw [List.forall_mem_cons, List.forall_mem_singleton]
    exact ⟨⟨⟨0⟩, ⟨0⟩, by decide +kernel, by decide +kernel⟩,
      ⟨⟨1⟩, ⟨0⟩, by decide +kernel, by decide +kernel⟩⟩
  obtain ⟨-, hbuilds, hchecks⟩ := hf.check_build_alu hc (.stop ⟨0⟩) .fadd hsrc
  have htakes : (Operation.outcome mixedWidths).Takes (.stop ⟨0⟩) :=
    (by decide +kernel : ⟨0⟩ ∈ (Operation.outcome mixedWidths).layout)
  obtain ⟨v, g, h⟩ := hbuilds.mpr ⟨rfl, htakes⟩
  obtain ⟨slot, w, -, hw, hcheck⟩ := (hchecks v g h).2.2 (by decide +kernel)
  exact ⟨hf, hc, v, g, h, slot, w, hw, hcheck⟩

theorem mixedWidths_sum_lacks_lane :
    (Operation.outcome mixedWidths).check = .ok (.ok ()) ∧
    ((Operation.outcome mixedWidths).build (.stop ⟨0⟩) (.alu .fadd [⟨0⟩, ⟨1⟩]) >>=
      fun r => r.2.check) = .ok (.error (.laneOutOfRange ⟨2⟩ 1 2 2)) :=
  ⟨rfl, rfl⟩

end Function

end ShaderSSA
