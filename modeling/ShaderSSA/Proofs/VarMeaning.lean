import ShaderSSA.Proofs.Readiness
import ShaderSSA.Proofs.Sweep
import ShaderSSA.Proofs.Tree

/-! Splitting the variables of a shader keeps its meaning: whatever a run leaves outside, a run of
the split shader leaves too, though the variables it goes through are others. -/

namespace ShaderSSA

theorem mapM_ok {α β γ : Type} {m : β → Checked γ} {R : α → β → Prop} {S : β → γ → Prop}
    {l : List α} {l' : List β} (hr : List.Forall₂ R l l')
    (h : ∀ a b, R a b → ∃ c, m b = .ok c ∧ S b c) :
    ∃ l'', l'.mapM m = .ok l'' ∧ List.Forall₂ S l' l'' := by
  induction hr with
  | nil => exact ⟨[], rfl, .nil⟩
  | cons hab _ ih =>
    obtain ⟨c, hc, hs⟩ := h _ _ hab
    obtain ⟨cs, hcs, hss⟩ := ih
    refine ⟨c :: cs, ?_, .cons hs hss⟩
    simp only [List.mapM_cons, hc, hcs, ok_bind]
    rfl

theorem forall₂_trans {α β γ : Type} {R : α → β → Prop} {S : β → γ → Prop} {Q : α → γ → Prop}
    (h : ∀ a b c, R a b → S b c → Q a c) {l : List α} {l' : List β} {l'' : List γ}
    (hr : List.Forall₂ R l l') (hs : List.Forall₂ S l' l'') : List.Forall₂ Q l l'' := by
  induction hr generalizing l'' with
  | nil =>
    obtain rfl := List.forall₂_nil_left_iff.mp hs
    exact .nil
  | cons hab _ ih =>
    obtain ⟨c, cs, hbc, hrest, rfl⟩ := List.forall₂_cons_left_iff.mp hs
    exact .cons (h _ _ _ hab hbc) (ih hrest)

theorem Variables.get?_foldl_drop (vars : Variables) (l : List VarId) :
    (l.foldl Variables.drop vars).get? = vars.get? := by
  induction l generalizing vars with
  | nil => rfl
  | cons i l ih => exact ih (vars.drop i)

/-- How many accesses to several channels there are. -/
def wideCount (fs : List Function) : Nat := (fs.map (·.wideAccesses.length)).sum

theorem wideCount_le {fs gs : List Function}
    (h : List.Forall₂ (fun f g => g.wideAccesses.length ≤ f.wideAccesses.length) fs gs) :
    wideCount gs ≤ wideCount fs := by
  induction h with
  | nil => exact le_refl _
  | cons hle _ ih =>
    simp only [wideCount, List.map_cons, List.sum_cons] at ih ⊢
    omega

namespace Function

variable {T : Terms} {s : Splitting}

theorem splitVarsEach_ok [FloatOps] (hT : T.derefs) {fs : List Function} (hsane : s.Sane)
    (hf : ∀ f ∈ fs, f.Sound T s.vars) :
    ∃ gs s', (fs.mapM (splitVars T.stage T.modes)).run s = .ok (gs, s') ∧
      s.vars.Extends s'.vars ∧
      s'.stats.loads + s'.stats.stores + wideCount gs ≤
        s.stats.loads + s.stats.stores + wideCount fs ∧
      List.Forall₂ (fun f g => g.Sound T s'.vars ∧
        (∀ b i, ¬ g.VarLeft T.stage T.modes s'.vars b i) ∧
        (T.narrow → T.ordered → ∀ vars, vars.Extends s.vars → Refines f vars g s'.vars)) fs gs := by
  induction fs generalizing s with
  | nil => exact ⟨[], s, rfl, .refl _, le_refl _, .nil⟩
  | cons f fs ih =>
    obtain ⟨g, s₁, hg, ⟨hsane₁, hsound⟩, hdone, hnone⟩ :=
      splitVars_ok (hf f List.mem_cons_self) hT hsane
    obtain ⟨gs, s₂, hgs, hx, hcount, hall⟩ := ih hsane₁ fun k hk =>
      (hf k (List.mem_cons_of_mem f hk)).extends hdone.vars
    have hcount₁ := hdone.count
    refine ⟨g :: gs, s₂, ?_, hdone.vars.trans hx, ?_, .cons ⟨hsound.extends hx,
      fun b i hleft => hnone b i (hleft.of_extends hsound hT hx),
      fun hn ho vars hv => hdone.refines hn ho vars s₂.vars hv hx⟩ (hall.imp ?_)⟩
    · simp only [List.mapM_cons, StateT.run_bind, hg, hgs, ok_bind]
      rfl
    · simp only [wideCount, List.map_cons, List.sum_cons] at hcount ⊢
      omega
    · rintro k l ⟨hl, hleft, hr⟩
      exact ⟨hl, hleft, fun hn ho vars hv => hr hn ho vars (hv.trans hdone.vars)⟩

/-- What splitting the variables of a shader makes of one of its functions. -/
structure VarsSplit [FloatOps] (T : Terms) (vars vars' : Variables) (f g : Function) : Prop where
  sound : g.Sound T vars'
  none : ∀ b i, ¬ g.VarLeft T.stage T.modes vars' b i
  swept : ∀ i, ¬ g.Dead i
  refines : T.narrow → T.ordered → Refines f vars g vars'

end Function

namespace Shader

variable {T : Terms} {s : Shader}

theorem splitVars_ok [FloatOps] (hT : T.derefs) (hstage : T.stage = s.stage)
    (hf : ∀ f ∈ s.functions, f.Sound T s.vars) :
    ∃ stats s', s.splitVars T.modes = .ok (stats, s') ∧ s'.stage = s.stage ∧
      stats.loads + stats.stores + wideCount s'.functions ≤ wideCount s.functions ∧
      List.Forall₂ (Function.VarsSplit T s.vars s'.vars) s.functions s'.functions := by
  have hsane : Splitting.Sane ⟨s.vars, [], .zero⟩ := by simp [Splitting.Sane]
  obtain ⟨gs, t, hgs, hx, hcount, hall⟩ := Function.splitVarsEach_ok hT hsane hf
  obtain ⟨ks, hks, hswept⟩ := mapM_ok (m := (·.sweepDerefs)) (S := fun g k =>
      (k.Sound T t.vars ∧ g.Swept k ∧ ∀ i, ¬ k.Dead i) ∧
        k.wideAccesses.length ≤ g.wideAccesses.length) hall fun f g hg => by
    obtain ⟨k, hk, ⟨hsound, hswept⟩, hdead⟩ := hg.1.sweepDerefs
    exact ⟨k, hk, ⟨hsound, hswept, hdead⟩, hswept.wideAccesses_le hg.1.tidy.linked.placed
      hsound.tidy.linked.placed⟩
  have hget := Variables.get?_foldl_drop t.vars t.sources
  have hvars : t.vars.Extends (t.sources.foldl Variables.drop t.vars) := by
    intro i x hi
    rw [hget, hi]
  refine ⟨{ t.stats with vars := t.sources.length },
    { s with vars := t.sources.foldl Variables.drop t.vars, functions := ks }, ?_, rfl, ?_,
    forall₂_trans (fun f g k hfg hgk => ?_) hall hswept⟩
  · simp only [splitVars, ← hstage, hgs, ok_bind, sweepDerefs, hks]
    rfl
  · have hle := wideCount_le (hswept.imp fun g k h => h.2)
    simp only [SplitStats.zero] at hcount ⊢
    omega
  · obtain ⟨hsound, hnone, hrefines⟩ := hfg
    obtain ⟨⟨hk, hswept, hdead⟩, -⟩ := hgk
    refine ⟨hk.extends hvars, fun b i hleft => ?_, hdead, fun hn ho => ?_⟩
    · exact hnone b i (hswept.varLeft (hleft.of_extends hk hT hvars))
    · exact ((hrefines hn ho s.vars (.refl _)).trans (hswept.refines t.vars)).trans
        (.extends k hvars)

/-- Splitting variables into channels keeps what the runs of a shader leave outside. -/
theorem splitVars_preserves [FloatOps] (s : Shader) (modes : Mode)
    (hreached : ∀ f ∈ s.functions, f.Reached) (hcheck : s.check = .ok (.ok ()))
    (hdom : ∀ f ∈ s.functions, f.DominanceRespecting)
    (hready : ∀ f ∈ s.functions, f.VarReady s.stage modes s.vars) :
    ∃ stats s', s.splitVars modes = .ok (stats, s') ∧ ∀ io io' limit,
      s.run io limit = some ⟨io', none⟩ → ∃ limit', s'.run io limit' = some ⟨io', none⟩ := by
  have hverified := Shader.verified_of_check hreached hcheck
  have hsound : ∀ f ∈ s.functions, f.Sound (Function.varTerms s.stage modes) s.vars :=
    fun f hf => (hready f hf).sound (hreached f hf) (hverified f hf) (hdom f hf)
  obtain ⟨stats, s', hs', -, -, hall⟩ := splitVars_ok (T := Function.varTerms s.stage modes)
    trivial rfl hsound
  refine ⟨stats, s', hs', fun io io' limit => ?_⟩
  exact Shader.run_of_refines (fun f hf => (hreached f hf).linked.defined)
    (hall.imp fun f g h => ⟨h.sound.tidy.linked.defined, h.refines trivial trivial⟩)

end Shader

/-- Reads an input of three channels, and in a loop writes the second of two channels of an array
element and reads both back. -/
def arrayEdits : List Edit :=
  [.insert (.stop ⟨0⟩) (.deref ⟨.var ⟨0⟩, .shaderIn, .floats 3⟩) (some ⟨1, 32⟩),
    .insert (.stop ⟨0⟩) (.access ⟨.loadDeref, 3, [⟨0⟩], 0, 0, 0⟩) (some ⟨3, 32⟩),
    .insert (.stop ⟨0⟩) (.const [1]) (some ⟨1, 32⟩),
    .insert (.stop ⟨0⟩) (.deref ⟨.var ⟨1⟩, .shaderOut, .array (.floats 2) 2⟩) (some ⟨1, 32⟩),
    .addBlock, .addBlock, .setTerminator ⟨0⟩ (.jump ⟨1⟩),
    .insert (.stop ⟨1⟩) (.deref ⟨.element ⟨3⟩ ⟨2⟩, .shaderOut, .floats 2⟩) (some ⟨1, 32⟩),
    .insert (.stop ⟨1⟩) (.access ⟨.storeDeref, 2, [⟨4⟩, ⟨1⟩], 0, 0, 2⟩) none,
    .insert (.stop ⟨1⟩) (.access ⟨.loadDeref, 2, [⟨4⟩], 0, 0, 0⟩) (some ⟨2, 32⟩),
    .setTerminator ⟨1⟩ (.branch ⟨5⟩ ⟨1⟩ ⟨2⟩)]

def arrayVars : Variables :=
  ⟨⟨#[⟨"color", .shaderIn, .floats 3, 40, 0, ⟨false, false, false⟩, 0⟩,
    ⟨"rows", .shaderOut, .array (.floats 2) 2, 33, 1, ⟨false, false, false⟩, 0⟩]⟩, [⟨0⟩, ⟨1⟩]⟩

def arrayShader : Shader := ⟨.fragment, arrayVars, [Edit.outcome arrayEdits]⟩

theorem splitVars_preserves_arrayShader :
    (Edit.outcome arrayEdits).Reached ∧ (Edit.outcome arrayEdits).DominanceRespecting ∧
      (Edit.outcome arrayEdits).VarReady .fragment .inOut arrayVars ∧
      arrayShader.check = .ok (.ok ()) ∧
      arrayShader.run ⟨[(⟨40, 1⟩, 5)], [], []⟩ 7 =
        some ⟨⟨[(⟨40, 1⟩, 5)], [], [(⟨34, 2⟩, 5)]⟩, none⟩ ∧
      ∃ stats s' limit', arrayShader.splitVars .inOut = .ok (stats, s') ∧
        s'.run ⟨[(⟨40, 1⟩, 5)], [], []⟩ limit' =
          some ⟨⟨[(⟨40, 1⟩, 5)], [], [(⟨34, 2⟩, 5)]⟩, none⟩ := by
  have hreached := Function.Reached.outcome arrayEdits
  have hdom := Function.dominanceRespecting_of_check hreached.linked (by decide +kernel)
  have hready : (Edit.outcome arrayEdits).VarReady .fragment .inOut arrayVars := by decide +kernel
  have hcheck : arrayShader.check = .ok (.ok ()) := rfl
  have hrun : arrayShader.run ⟨[(⟨40, 1⟩, 5)], [], []⟩ 7 =
      some ⟨⟨[(⟨40, 1⟩, 5)], [], [(⟨34, 2⟩, 5)]⟩, none⟩ :=
    Shader.run_eq_some (by decide +kernel)
  obtain ⟨stats, s', hs', hpreserves⟩ := Shader.splitVars_preserves arrayShader .inOut
    (by simpa [arrayShader] using hreached) hcheck (by simpa [arrayShader] using hdom)
    (by simpa [arrayShader] using hready)
  obtain ⟨limit', hlimit⟩ := hpreserves _ _ 7 hrun
  exact ⟨hreached, hdom, hready, hcheck, hrun, stats, s', limit', hs', hlimit⟩

end ShaderSSA
