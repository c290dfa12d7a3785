import ShaderSSA.DerefChain
import ShaderSSA.Proofs.Settled

/-! Chains of derefs that end at a variable. The variable and the offset that a chain reaches follow
from the types along it and from its indices, and where operands are defined at dominating points
an access finds the place that its indices still name. -/

namespace ShaderSSA

namespace Function

/-- From the variable `root`, declared as `x`, array steps lead to `v`, each with the variable's
mode and the type of the elements of the one before. -/
inductive Chain (f : Function) (root : VarId) (x : Variable) : Nat → ValueId → VarType → Prop
  | var {v : ValueId} {i : InstrId} : f.source? v = some i →
      f.body? i = some (.deref ⟨.var root, x.mode, x.type⟩) → Chain f root x 1 v x.type
  | element {n : Nat} {v parent index : ValueId} {i : InstrId} {type : VarType} {length : Nat} :
      f.source? v = some i → f.body? i = some (.deref ⟨.element parent index, x.mode, type⟩) →
      Chain f root x n parent (.array type length) → Chain f root x (n + 1) v type

/-- The indices of the last `n` steps to a value. -/
def indices (f : Function) : Nat → ValueId → List ValueId
  | 0, _ => []
  | n + 1, v =>
    match (f.source? v).bind f.body? with
    | some (.deref ⟨.element parent index, _, _⟩) => index :: f.indices n parent
    | _ => []

/-- The offset that the last `n` steps to a value add up to. -/
def offset? (f : Function) (e : Env) : Nat → ValueId → Option Nat
  | 0, _ => none
  | n + 1, v =>
    match (f.source? v).bind f.body? with
    | some (.deref ⟨.element parent index, _, type⟩) => do
      let offset ← f.offset? e n parent
      let stride ← type.slotCount?
      let step ← (Checked.fit 32 ((← e.values index).first.toNat * stride)).toOption
      (Checked.fit 32 (offset + step)).toOption
    | _ => some 0

variable {f g : Function} {root : VarId} {x : Variable} {n : Nat} {v : ValueId} {t : VarType}
  {i : InstrId}

theorem deref_eq_ok {body : Body} (hs : f.source? v = some i) (hb : f.body? i = some body) :
    f.deref v = .ok body.deref? := by
  obtain ⟨y, hy, rfl⟩ := Option.map_eq_some_iff.mp hs
  obtain ⟨z, hz, rfl⟩ := Option.map_eq_some_iff.mp hb
  simp only [deref, definition, value_eq_ok.mpr hy, instr_eq_ok.mpr hz, ok_bind]
  rfl

theorem Chain.source (h : f.Chain root x n v t) : ∃ i d, f.source? v = some i ∧
    f.body? i = some (.deref d) ∧ d.mode = x.mode ∧ d.type = t := by
  cases h with
  | var hs hb => exact ⟨_, _, hs, hb, rfl, rfl⟩
  | element hs hb _ => exact ⟨_, _, hs, hb, rfl, rfl⟩

theorem Chain.deref (h : f.Chain root x n v t) :
    ∃ d, f.deref v = .ok (some d) ∧ d.mode = x.mode ∧ d.type = t := by
  obtain ⟨i, d, hs, hb, hd⟩ := h.source
  exact ⟨d, deref_eq_ok hs hb, hd⟩

theorem Chain.isPlace (h : f.Chain root x n v t) : f.isPlace v := by
  obtain ⟨i, d, hs, hb, -⟩ := h.source
  simp [isPlace_eq hs hb, Body.deref?]

theorem Chain.hasValue (h : f.Chain root x n v t) : f.hasValue v := by
  obtain ⟨i, d, hs, -⟩ := h.source
  obtain ⟨y, hy, -⟩ := Option.map_eq_some_iff.mp hs
  exact hasValue_iff.mpr ⟨y, hy⟩

theorem Chain.unique (h : f.Chain root x n v t) {root' : VarId} {x' : Variable} {m : Nat}
    {t' : VarType} (h' : f.Chain root' x' m v t') : n = m ∧ root = root' := by
  induction h generalizing m t' with
  | var hs hb =>
    cases h' with
    | var hs' hb' => simp_all
    | element hs' hb' _ => simp_all
  | element hs hb _ ih =>
    cases h' with
    | var hs' hb' => simp_all
    | element hs' hb' hp =>
      obtain rfl := Option.some.inj (hs.symm.trans hs')
      rw [hb] at hb'
      simp only [Option.some.injEq, Body.deref.injEq, Deref.mk.injEq,
        DerefStep.element.injEq] at hb'
      obtain ⟨⟨rfl, rfl⟩, -, -⟩ := hb'
      have hsame := ih hp
      exact ⟨by omega, hsame.2⟩

theorem Chain.exists_nodup (h : f.Chain root x n v t) :
    ∃ l : List ValueId, l.length = n ∧ l.Nodup ∧
      ∀ w ∈ l, f.hasValue w ∧ ∃ m s, m ≤ n ∧ f.Chain root x m w s := by
  induction h with
  | @var v i hs hb =>
    have hc : f.Chain root x 1 v x.type := .var hs hb
    exact ⟨[v], rfl, by simp, by simpa using ⟨hc.hasValue, 1, le_refl 1, x.type, hc⟩⟩
  | @element n v parent index i type length hs hb hp ih =>
    obtain ⟨l, hlen, hnd, hl⟩ := ih
    have hc : f.Chain root x (n + 1) v type := .element hs hb hp
    refine ⟨v :: l, by simp [hlen], List.nodup_cons.mpr ⟨fun hv => ?_, hnd⟩, ?_⟩
    · obtain ⟨-, m, s, hm, hchain⟩ := hl v hv
      have := (hc.unique hchain).1
      omega
    · intro w hw
      rcases List.mem_cons.mp hw with rfl | hw
      · exact ⟨hc.hasValue, n + 1, type, le_refl _, hc⟩
      · obtain ⟨hk, m, s, hm, hchain⟩ := hl w hw
        exact ⟨hk, m, s, by omega, hchain⟩

theorem length_le_of_nodup {l : List ValueId} (hnd : l.Nodup) (hl : ∀ w ∈ l, f.hasValue w) :
    l.length ≤ f.values.size := by
  have hsub : l ⊆ f.values.ids := by
    intro w hw
    obtain ⟨y, hy⟩ := hasValue_iff.mp (hl w hw)
    exact (Arena.mem_ids _ _).mpr (Arena.get?_eq_some_lt hy)
  simpa [Arena.ids] using (hnd.subperm hsub).length_le

theorem Chain.length_le (h : f.Chain root x n v t) : n ≤ f.values.size := by
  obtain ⟨l, rfl, hnd, hl⟩ := h.exists_nodup
  exact length_le_of_nodup hnd fun w hw => (hl w hw).1

theorem Chain.rootWithin (h : f.Chain root x n v t) {steps : Nat} (hn : n ≤ steps) :
    f.rootWithin steps v = .ok (some root) := by
  induction h generalizing steps with
  | var hs hb =>
    obtain ⟨steps, rfl⟩ : ∃ k, steps = k + 1 := ⟨steps - 1, by omega⟩
    simp only [Function.rootWithin, deref_eq_ok hs hb, Body.deref?, ok_bind]
    rfl
  | element hs hb _ ih =>
    obtain ⟨steps, rfl⟩ : ∃ k, steps = k + 1 := ⟨steps - 1, by omega⟩
    simp only [Function.rootWithin, deref_eq_ok hs hb, Body.deref?, ok_bind]
    exact ih (by omega)

theorem Chain.derefRoot (h : f.Chain root x n v t) : f.derefRoot v = .ok (some root) :=
  h.rootWithin (by have := h.length_le; omega)

theorem Chain.grown (h : f.Chain root x n v t) {news : List InstrId} (hg : f.Grown i news g) :
    g.Chain root x n v t ∧ g.indices n v = f.indices n v := by
  have hbody : ∀ {j : InstrId} {body : Body}, f.body? j = some body → g.body? j = some body := by
    intro j body hb
    obtain ⟨y, hy, -⟩ := Option.map_eq_some_iff.mp hb
    rw [hg.body hy, hb]
  induction h with
  | var hs hb =>
    refine ⟨.var (hg.source _ _ hs) (hbody hb), ?_⟩
    simp [indices, hs, hb, hg.source _ _ hs, hbody hb]
  | element hs hb _ ih =>
    refine ⟨.element (hg.source _ _ hs) (hbody hb) ih.1, ?_⟩
    simp [indices, hs, hb, hg.source _ _ hs, hbody hb, ih.2]

/-- A chain of derefs that are kept, as far as the places they step from go, is kept. -/
theorem Chain.kept (h : f.Chain root x n v t) (hc : f.Closed) (hv : f.Live v)
    (hkeep : ∀ j b d w, f.home? j = some b → f.body? j = some (.deref d) →
      f.source? w = some j → g.source? w = some j ∧
        ∃ ρ, g.body? j = some ((Body.deref d).mapSrcs ρ) ∧
          ∀ z, f.Live z → f.isPlace z → ρ 0 z = z) : g.Chain root x n v t := by
  induction h with
  | @var v i hs hb =>
    obtain ⟨j, b, hj, hjb⟩ := hv
    obtain rfl : i = j := by simpa [hs] using hj
    obtain ⟨hs', ρ, hρ, -⟩ := hkeep i b _ v hjb hb hs
    exact .var hs' hρ
  | @element n v parent index i type length hs hb hp ih =>
    obtain ⟨j, b, hj, hjb⟩ := hv
    obtain rfl : i = j := by simpa [hs] using hj
    obtain ⟨s, hread⟩ := reads?_of_mem hjb hb (v := parent) (by simp [Body.srcs])
    have hlive := hc.source _ parent hread
    obtain ⟨hs', ρ, hρ, hplace⟩ := hkeep i b _ v hjb hb hs
    have hstep : g.body? i = some (.deref ⟨.element parent (ρ 1 index), x.mode, type⟩) := by
      rw [hρ]
      simp [Body.mapSrcs, hplace parent hlive hp.isPlace]
    exact .element hs' hstep (ih hlive)

theorem Chain.live_indices (h : f.Chain root x n v t) (hc : f.Closed) (hv : f.Live v) :
    ∀ z ∈ f.indices n v, f.Live z := by
  induction h with
  | var hs hb => simp [indices, hs, hb]
  | @element n v parent index i type length hs hb hp ih =>
    obtain ⟨j, b, hj, hjb⟩ := hv
    obtain rfl : i = j := by simpa [hs] using hj
    obtain ⟨s, hpar⟩ := reads?_of_mem hjb hb (v := parent) (by simp [Body.srcs])
    obtain ⟨s', hidx⟩ := reads?_of_mem hjb hb (v := index) (by simp [Body.srcs])
    intro z hz
    simp only [indices, hs, hb, Option.bind_some, List.mem_cons] at hz
    rcases hz with rfl | hz
    · exact hc.source _ z hidx
    · exact ih (hc.source _ parent hpar) z hz

section Meaning

variable {e e' : Env} {vars : Variables} {io : IoState} {b : BlockId} {done rest : List InstrId}
  {d : InstrId}

theorem offset?_congr (h : ∀ z ∈ f.indices n v, e'.values z = e.values z) :
    f.offset? e' n v = f.offset? e n v := by
  induction n generalizing v with
  | zero => rfl
  | succ n ih =>
    simp only [offset?, indices] at h ⊢
    split
    · rename_i parent index mode type hb
      rw [hb] at h
      simp only [List.mem_cons, forall_eq_or_imp] at h
      rw [ih h.2, h.1]
    · rfl

theorem before_of_step (hp : f.Placed) (hdom : f.DominanceRespecting) (hr : f.blocks.Reachable b)
    (hb : f.blockInstrs b = done ++ rest) (hd : f.Before d b done) {body : Body}
    (hbody : f.body? d = some body) {w : ValueId} (hw : w ∈ body.srcs) :
    ∃ j, f.source? w = some j ∧ f.Before j b done := by
  obtain ⟨c, pre, post, hc, hrc, hpre, -⟩ := hd.position hp hr hb
  obtain ⟨s, hread⟩ := reads?_of_mem hc hbody hw
  obtain ⟨j, hj, hbef⟩ := hdom.operand c pre d post s w hrc hpre hread
  exact ⟨j, hj, hd.trans hp hr hb hpre hbef⟩

theorem Chain.before_indices (h : f.Chain root x n v t) (hp : f.Placed)
    (hdom : f.DominanceRespecting) (hr : f.blocks.Reachable b)
    (hb : f.blockInstrs b = done ++ rest) (hs : f.source? v = some d) (hd : f.Before d b done) :
    ∀ z ∈ f.indices n v, ∃ j, f.source? z = some j ∧ f.Before j b done := by
  induction h generalizing d with
  | var hs' hbody => simp [indices, hs', hbody]
  | @element n v parent index i type length hs' hbody hpar ih =>
    obtain rfl : i = d := by simpa [hs'] using hs
    intro z hz
    simp only [indices, hs', hbody, Option.bind_some, List.mem_cons] at hz
    rcases hz with rfl | hz
    · exact before_of_step hp hdom hr hb hd hbody (by simp [Body.srcs])
    · obtain ⟨j, hj, hbef⟩ := before_of_step hp hdom hr hb hd hbody (w := parent)
        (by simp [Body.srcs])
      exact ih hj hbef z hz

/-- A deref that has been done names the place that its operands still give. -/
theorem derefPlace_of_settled [FloatOps] (hp : f.Placed) (hdef : f.Defined)
    (hdom : f.DominanceRespecting) (ha : Arrives f vars io b done e) (hs : f.source? v = some d)
    (hd : f.Before d b done) {deref : Deref} (hbody : f.body? d = some (.deref deref)) :
    e.derefPlace deref = e.places v := by
  have hstep := settled hp hdef hdom ha hd hbody rfl
  simp only [step?, hbody, Option.bind_some, Env.effect, (hdef.iff d v).mpr hs,
    Option.map_eq_some_iff, Option.map_map] at hstep
  obtain ⟨p, hp, he⟩ := hstep
  rw [hp, ← he]
  simp [Env.apply, Env.definePlace]

theorem Chain.place [FloatOps] (h : f.Chain root x n v t) (hp : f.Placed) (hdef : f.Defined)
    (hdom : f.DominanceRespecting) (ha : Arrives f vars io b done e) (hs : f.source? v = some d)
    (hd : f.Before d b done) {p : Place} (hplace : e.places v = some p) :
    p.var = root ∧ f.offset? e n v = some p.offset := by
  obtain ⟨rest, hb⟩ := ha.split
  have hr := ha.reachable
  induction h generalizing d p with
  | @var v i hs' hbody =>
    obtain rfl : i = d := by simpa [hs'] using hs
    have hsettled := derefPlace_of_settled hp hdef hdom ha hs hd hbody
    rw [hplace] at hsettled
    obtain rfl : ⟨root, 0⟩ = p := by simpa [Env.derefPlace] using hsettled
    exact ⟨rfl, by simp [offset?, hs', hbody]⟩
  | @element n v parent index i type length hs' hbody hpar ih =>
    obtain rfl : i = d := by simpa [hs'] using hs
    have hsettled := derefPlace_of_settled hp hdef hdom ha hs hd hbody
    rw [hplace] at hsettled
    simp only [Env.derefPlace, Option.bind_eq_bind, Option.bind_eq_some_iff, Option.pure_def,
      Option.some.injEq] at hsettled
    obtain ⟨q, hq, stride, hstride, y, hy, step, hstep, offset, hoffset, rfl⟩ := hsettled
    obtain ⟨j, hj, hbef⟩ := before_of_step hp hdom hr hb hd hbody (w := parent)
      (by simp [Body.srcs])
    obtain ⟨hroot, hoff⟩ := ih hj hbef hq
    refine ⟨hroot, ?_⟩
    simp [offset?, hs', hbody, hoff, hstride, hy, hstep, hoffset]

end Meaning

end Function

end ShaderSSA
